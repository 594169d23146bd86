import Mikelibc.Log.Registry

/-! # The error contract of `setloggertype`

The header promises that after an error the type of the logger is `MLOG_NONE`. The
code assigns the type before it looks at the path: a failed `fopen` takes it back,
`MLOG_FILE` without a path does not. `setloggertype_contract_iff` says that this is
the only way to break the promise, whatever the list of loggers. -/
namespace Mikelibc.Log
open CSem Linked

/-- What is promised of a logger with the value returned: with 1 the type asked for and a stream
to write to, with 0 the type `MLOG_NONE`. -/
def Promised (type : LoggerType) (fopen : Except String Nat) (files : List Nat) (value : Int)
    (loggertype : LoggerType) (logfile : Option Stream) : Prop :=
  (value = 1 ∧ loggertype = type ∧ (logfile = some .stdout ∨ logfile = some .stderr ∨
    ∃ id, fopen = .ok id ∧ id ∈ files ∧ logfile = some (.file id))) ∨
  (value = 0 ∧ loggertype = .none)

/-- `setloggertype` keeps the contract on this list: 0 and no change without a logger of the
handle; with one, what is promised of it, while its other fields, its place on the list and all
other loggers stay as they are. -/
def KeepsContract (fuel : Nat) (h : Int) (type : LoggerType) (path : Option String)
    (fopen : Except String Nat) (g : Globals) (nodes : Loggers) : Prop :=
  ∃ heap files value out, setloggertype fuel h type path fopen g =
      .ok ({ g with heap := heap, openFiles := files }, value, out) ∧
    ((∀ c ∈ nodes, mloggerCheck h c.2 = false) ∧ value = 0 ∧ IsList heap g.mloggers nodes ∨
      ∃ pre a x post loggertype logfile, nodes = pre ++ (a, x) :: post ∧
        (∀ c ∈ pre, mloggerCheck h c.2 = false) ∧ mloggerCheck h x = true ∧
        IsList heap g.mloggers
          (pre ++ (a, { x with loggertype := loggertype, logfile := logfile }) :: post) ∧
        Promised type fopen files value loggertype logfile)

variable {fuel : Nat} {g : Globals} {nodes : Loggers} {h : Int}

/-- `MLOG_FILE` without a path is the one call for which the promise is not kept. -/
theorem retarget_promised {type : LoggerType} {path : Option String}
    (hcall : ¬ (type = .file ∧ path = none)) (fopen : Except String Nat) (files : List Nat)
    (x : Mlog) :
    ∃ loggertype logfile,
      retarget type path fopen x = { x with loggertype := loggertype, logfile := logfile } ∧
      Promised type fopen (opened type path fopen ++ files) (retargetValue type path fopen)
        loggertype logfile := by
  by_cases htype : type = .file
  · subst htype
    cases path with
    | none => exact absurd ⟨rfl, rfl⟩ hcall
    | some p =>
      cases fopen with
      | ok id =>
        exact ⟨.file, some (.file id), rfl,
          .inl ⟨rfl, rfl, .inr (.inr ⟨id, rfl, List.mem_cons_self, rfl⟩)⟩⟩
      | error e => exact ⟨.none, none, rfl, .inr ⟨rfl, rfl⟩⟩
  · refine ⟨type, some (if type = .stderr then .stderr else .stdout), by simp [retarget, htype],
      .inl ⟨by simp [retargetValue, htype], rfl, ?_⟩⟩
    split
    · exact .inr (.inl rfl)
    · exact .inl rfl

theorem exists_firstLogger (hlive : ∃ c ∈ nodes, mloggerCheck h c.2 = true) :
    ∃ pre a x post, nodes = pre ++ (a, x) :: post ∧ (∀ c ∈ pre, mloggerCheck h c.2 = false) ∧
      mloggerCheck h x = true := by
  obtain ⟨⟨a, x⟩, hfind⟩ := Option.isSome_iff_exists.mp
    (List.find?_isSome (p := fun c : Nat × Mlog => mloggerCheck h c.2).mpr hlive)
  obtain ⟨hx, pre, post, rfl, hpre⟩ := List.find?_eq_some_iff_append.mp hfind
  exact ⟨pre, a, x, post, rfl, by simpa using hpre, hx⟩

/-- `MLOG_FILE` without a path: 0 is returned, and the type stays `MLOG_FILE`. -/
theorem not_keepsContract (hlist : IsList g.heap g.mloggers nodes) (hf : nodes.length < fuel)
    (hlive : ∃ c ∈ nodes, mloggerCheck h c.2 = true) (fopen : Except String Nat) :
    ¬ KeepsContract fuel h .file none fopen g nodes := by
  intro hkeeps
  obtain ⟨heap, files, value, out, hset, ⟨hnone, _⟩ |
    ⟨pre, a, x, post, loggertype, logfile, rfl, hpre, hx, hafter, hpromised⟩⟩ := hkeeps
  · obtain ⟨c, hc, hx⟩ := hlive
    simp [hnone c hc] at hx
  · obtain ⟨heap', out', hset', hlist'⟩ := setloggertype_middle hlist hf hx hpre .file none fopen
    rw [hset] at hset'
    cases hset'
    -- a list determines its cells: the logger is the one `retarget` leaves
    have hsame := List.append_cancel_left (hafter.unique hlist')
    have htype : loggertype = .file := by
      have hx' := congrArg Prod.snd (List.cons.inj hsame).1
      exact congrArg Mlog.loggertype hx'
    subst htype
    rcases hpromised with ⟨hone, _⟩ | ⟨_, hno⟩
    · cases hone
    · cases hno

/-- **When `setloggertype` keeps its error contract**: unless it is called for a live logger with
`MLOG_FILE` and no path. -/
theorem setloggertype_contract_iff (hlist : IsList g.heap g.mloggers nodes)
    (hf : nodes.length < fuel) (h : Int) (type : LoggerType) (path : Option String)
    (fopen : Except String Nat) :
    KeepsContract fuel h type path fopen g nodes ↔
      ¬ (type = .file ∧ path = none ∧ ∃ c ∈ nodes, mloggerCheck h c.2 = true) := by
  constructor
  · rintro hkeeps ⟨rfl, rfl, hlive⟩
    exact not_keepsContract hlist hf hlive fopen hkeeps
  · intro hcall
    by_cases hlive : ∃ c ∈ nodes, mloggerCheck h c.2 = true
    · obtain ⟨pre, a, x, post, rfl, hpre, hx⟩ := exists_firstLogger hlive
      obtain ⟨heap, out, hset, hafter⟩ := setloggertype_middle hlist hf hx hpre type path fopen
      obtain ⟨loggertype, logfile, hx', hpromised⟩ := retarget_promised
        (fun hbad => hcall ⟨hbad.1, hbad.2, hlive⟩) fopen g.openFiles x
      rw [hx'] at hafter
      exact ⟨heap, _, _, out, hset, .inr
        ⟨pre, a, x, post, loggertype, logfile, rfl, hpre, hx, hafter, hpromised⟩⟩
    · have hnone : ∀ c ∈ nodes, mloggerCheck h c.2 = false := fun c hc => by
        rw [← Bool.not_eq_true]
        exact fun hx => hlive ⟨c, hc, hx⟩
      obtain ⟨out, hset⟩ := setloggertype_unknown hlist hf hnone type path fopen
      exact ⟨g.heap, g.openFiles, 0, out, hset, .inl ⟨hnone, rfl, hlist⟩⟩

/-- One logger that writes to `stdout`, as `get_mlogger` leaves it. -/
def oneLogger : Globals :=
  ⟨0, some 1, 1, 1, Function.update (fun _ => none) 1
    (some ⟨newLogger .stdout .debug .none 0, none⟩), []⟩

theorem oneLogger_list :
    IsList oneLogger.heap oneLogger.mloggers [(1, newLogger .stdout .debug .none 0)] :=
  IsList.cons_iff.mpr ⟨rfl, none, rfl, .nil none⟩

/-- A file that cannot be opened leaves the logger without a type. -/
theorem setloggertype_contract_failed_fopen :
    KeepsContract 2 0 .file (some "/nowhere") (.error "No such file or directory") oneLogger
      [(1, newLogger .stdout .debug .none 0)] :=
  (setloggertype_contract_iff oneLogger_list (by decide) 0 .file (some "/nowhere")
    (.error "No such file or directory")).mpr (by simp)

/-- Without a path the logger is left with the type `MLOG_FILE`. -/
theorem setloggertype_keeps_type :
    ¬ ∀ (fuel : Nat) (g : Globals) (nodes : Loggers) (h : Int) (type : LoggerType)
      (path : Option String) (fopen : Except String Nat), IsList g.heap g.mloggers nodes →
      nodes.length < fuel → KeepsContract fuel h type path fopen g nodes := by
  intro hall
  exact not_keepsContract oneLogger_list (by decide) ⟨_, List.mem_cons_self, by decide⟩ (.error "")
    (hall 2 oneLogger _ 0 .file none (.error "") oneLogger_list (by decide))

end Mikelibc.Log
