import Mikelibc.Log.Steps

/-! # The assertion in `vmlogf`

A message is written to `logfile`, which is asserted not to be `NULL`. The type
and the stream of a logger are fields of their own: `get_mlogger` makes a file
logger with no stream, `setloggertype` without a path turns a logger into one,
and a callback hides it until the callback is taken away. Without these three
no call of `mlogf` aborts, and each of them makes one that does (`mlogf_completes_iff`). -/
namespace Mikelibc.Log
open CSem Linked

variable {fuel : Nat} {g : Globals} {nodes : Loggers}

/-- The types whose messages go to `logfile`. -/
def LoggerType.writes : LoggerType → Bool
  | .stdout | .stderr | .syslog | .file => true
  | .none | .other _ => false

/-- A logger that writes its messages itself has a stream to write them to. -/
def Mlog.Ready (x : Mlog) : Prop := x.callback = none → x.loggertype.writes = true → x.logfile ≠ none

/-- Every call of `mlogf` ends, whatever the handle, the severity and the text. -/
def MlogfCompletes (fuel : Nat) (g : Globals) : Prop :=
  ∀ strftime handle severity text, ∃ out, mlogf fuel strftime handle severity text g = .ok out

/-- A message that is not below the logger's severity needs the stream. -/
theorem vmlogf_iff (strftime : Bool → String → Text) (x : Mlog) :
    (∀ severity text, ∃ out, vmlogf strftime x severity text = .ok out) ↔ x.Ready := by
  constructor
  · intro hall hcallback hwrites hfile
    obtain ⟨out, hout⟩ := hall x.severity []
    cases htype : x.loggertype <;>
      simp [vmlogf, hcallback, htype, writeMessage, hfile, LoggerType.writes] at hout hwrites
  · intro hready severity text
    unfold vmlogf
    split
    · exact ⟨_, rfl⟩
    · split
      · exact ⟨_, rfl⟩
      · next hcallback =>
        have hmessage : x.loggertype.writes = true →
            ∃ out, writeMessage strftime x severity text = .ok out :=
          fun hwrites => by
            obtain ⟨f, hf⟩ := Option.ne_none_iff_exists'.mp (hready hcallback hwrites)
            exact ⟨_, by simp only [writeMessage, hf]; rfl⟩
        cases htype : x.loggertype with
        | none | other => exact ⟨_, rfl⟩
        | syslog =>
          obtain ⟨out, hout⟩ := hmessage (by rw [htype]; rfl)
          exact ⟨_, by simp only [hout, Outcome.ok_bind]; rfl⟩
        | stdout | stderr | file => exact hmessage (by rw [htype]; rfl)

/-- A message that does not end fails the assertion, and there is no callback. -/
theorem vmlogf_abort {strftime : Bool → String → Text} {x : Mlog} {severity : LogSeverity}
    {text : Text} (hno : ¬ ∃ out, vmlogf strftime x severity text = .ok out) :
    vmlogf strftime x severity text = .abort ∧ x.callback = none := by
  unfold vmlogf at hno ⊢
  by_cases hlow : severity.value < x.severity.value
  · exact absurd ⟨_, if_pos hlow⟩ hno
  · simp only [if_neg hlow] at hno ⊢
    cases hcallback : x.callback with
    | some callback => exact absurd ⟨_, by rw [hcallback]; rfl⟩ hno
    | none =>
      simp only [hcallback] at hno ⊢
      cases hfile : x.logfile <;> cases htype : x.loggertype <;>
        simp [htype, writeMessage, hfile] at hno ⊢

/-- `mlogf` aborts for no logger exactly when all are ready. -/
theorem Registered.completes_iff (hr : Registered g nodes) (hf : nodes.length < fuel) :
    MlogfCompletes fuel g ↔ ∀ c ∈ nodes, c.2.Ready := by
  constructor
  · intro hall c hc
    -- its own handle finds the logger
    refine (vmlogf_iff (fun _ _ => []) c.2).mp fun severity text => ?_
    obtain ⟨out, hout⟩ := hall (fun _ _ => []) c.2.handle severity text
    rw [mlogf_spec hr hf, hr.lookup_of_mem hc] at hout
    exact ⟨out, hout⟩
  · intro hready strftime handle severity text
    rw [mlogf_spec hr hf]
    cases hc : lookup nodes handle with
    | none => exact ⟨_, rfl⟩
    | some c => exact (vmlogf_iff strftime c.2).mpr (hready c (lookup_eq_some hc).1) severity text

/-- No file logger is created; a logger that has neither stream nor callback is not made a file
logger without a path; and the callback is not taken from a logger that has no stream to write to. -/
def KeepsStream (fuel : Nat) (g : Globals) : Op → Prop
  | .getMlogger malloc type _ _ => malloc = none ∨ type ≠ .file
  | .setloggertype h type path _ => type ≠ .file ∨ path ≠ none ∨
    ∀ x ∈ loggerOf fuel h g, x.callback ≠ none ∨ x.logfile ≠ none
  | .registerMlogCallback h callback _ => callback ≠ none ∨
    ∀ x ∈ loggerOf fuel h g, x.loggertype.writes = false ∨ x.logfile ≠ none
  | .shutdownMlogger _ | .shutdownAllMloggers | .setloggersev .. | .setloggertime .. => True

instance KeepsStream.decide (fuel : Nat) (g : Globals) (o : Op) : Decidable (KeepsStream fuel g o) :=
  match o with
  | .getMlogger .. => inferInstanceAs (Decidable (_ ∨ _))
  | .setloggertype .. => inferInstanceAs (Decidable (_ ∨ _ ∨ _))
  | .registerMlogCallback .. => inferInstanceAs (Decidable (_ ∨ _))
  | .shutdownMlogger _ | .shutdownAllMloggers | .setloggersev .. | .setloggertime .. => isTrue trivial

/-- After an assignment it is the logger of the handle that has to be looked at. -/
theorem Registered.ready_modify (hr : Registered g nodes) (hready : ∀ c ∈ nodes, c.2.Ready) (h : Int)
    (f : Mlog → Mlog) :
    (∀ c ∈ modify h f nodes, c.2.Ready) ↔ ∀ x ∈ (lookup nodes h).map Prod.snd, (f x).Ready := by
  rcases hr.cases h with hnone | ⟨pre, a, x, post, rfl, hx, hpre, hpost⟩
  · rw [modify_none hnone, lookup_none hnone]
    simpa using hready
  · rw [modify_middle hx hpre hpost, lookup_middle hx hpre]
    simp only [List.forall_mem_append, List.forall_mem_cons] at hready ⊢
    refine ⟨fun hall y hy => ?_, fun hall => ⟨hready.1, hall x rfl, hready.2.2⟩⟩
    obtain rfl : x = y := Option.some.inj hy
    exact hall.2.1

/-- What `setloggertype` asks of the logger for it to be ready afterwards. -/
theorem ready_retarget (type : LoggerType) (path : Option String) (fopen : Except String Nat)
    (x : Mlog) :
    (retarget type path fopen x).Ready ↔
      type ≠ .file ∨ path ≠ none ∨ x.callback ≠ none ∨ x.logfile ≠ none := by
  by_cases htype : type = .file
  · cases path with
    | none => simp [retarget, htype, Mlog.Ready, LoggerType.writes, Classical.or_iff_not_imp_left]
    | some p => cases fopen <;> simp [retarget, htype, Mlog.Ready, LoggerType.writes]
  · simp [retarget, htype, Mlog.Ready]

/-- A call leaves all loggers ready exactly when it is one of `KeepsStream`. -/
theorem keepsStream_iff (hr : Registered g nodes) (hf : nodes.length < fuel)
    (hready : ∀ c ∈ nodes, c.2.Ready)
    (o : Op) : (∀ c ∈ effect g.nextHandle nodes o, c.2.Ready) ↔ KeepsStream fuel g o := by
  have hfound : ∀ {h : Int}, ∀ x ∈ (lookup nodes h).map Prod.snd, x.Ready := fun x hx => by
    obtain ⟨c, hc, rfl⟩ := Option.map_eq_some_iff.mp hx
    exact hready c (lookup_eq_some hc).1
  cases o with
  | getMlogger malloc type severity logtime =>
    cases malloc with
    | none => exact iff_of_true hready (.inl rfl)
    | some a =>
      refine List.forall_mem_append.trans ((and_iff_right hready).trans ?_)
      simp [newLogger, ready_retarget, KeepsStream, freshLogger]
  | shutdownMlogger h => exact iff_of_true (fun c hc => hready c (List.mem_of_mem_filter hc)) trivial
  | shutdownAllMloggers => exact iff_of_true (by simp [effect]) trivial
  | setloggertype h type path fopen =>
    simp only [effect, hr.ready_modify hready, KeepsStream, hr.loggerOf_eq hf, ready_retarget]
    by_cases htype : type = .file <;> by_cases hpath : path = none <;> simp [htype, hpath]
  | setloggersev h severity =>
    exact iff_of_true
      ((hr.ready_modify hready h fun x => { x with severity := severity }).mpr hfound) trivial
  | setloggertime h tstype =>
    exact iff_of_true
      ((hr.ready_modify hready h fun x => { x with logtime := tstype }).mpr hfound) trivial
  | registerMlogCallback h callback cbData =>
    refine (hr.ready_modify hready h fun x =>
      { x with callback := callback, cbData := cbData }).trans ?_
    simp only [KeepsStream, hr.loggerOf_eq hf, Mlog.Ready]
    cases callback with
    | none => simp [Classical.or_iff_not_imp_left]
    | some f => simp

/-- **When logging does not abort.** Whatever the calls, every `mlogf` in every state they pass
through ends exactly when each call that ends is one of `KeepsStream`. -/
theorem mlogf_completes_iff (fuel : Nat) (ops : List Op) (hfuel : ops.length < fuel)
    (hfresh : ∀ p ∈ completed (step fuel) .start ops, Fresh p.1 p.2) :
    (∀ g ∈ reached (step fuel) .start ops, MlogfCompletes fuel g) ↔
      ∀ p ∈ completed (step fuel) .start ops, KeepsStream fuel p.1 p.2 :=
  reached_iff (fun nodes => ∀ c ∈ nodes, c.2.Ready) (by simp) (fun _ _ hr hf => hr.completes_iff hf)
    (fun _ _ o hr hf hready => keepsStream_iff hr hf hready o) ops hfuel hfresh

/-- A logger sent to a file that cannot be opened and then to one that can. -/
theorem mlogf_completes_retargeted :
    ∃ states, reached (step 5) .start [.getMlogger (some 0) .syslog .info .utc,
        .setloggertype 0 .file (some "/") (.error "Is a directory"),
        .setloggertype 0 .file (some "log") (.ok 0),
        .setloggertype 0 .file none (.error "")] = states ∧
      states.length = 5 ∧ ∀ g ∈ states, MlogfCompletes 5 g :=
  ⟨_, rfl, by decide +kernel, (mlogf_completes_iff 5 _ (by decide) (by decide +kernel)).mpr
    (by decide +kernel)⟩

/-- A new file logger aborts at its first message. -/
theorem mlogf_aborts :
    ¬ ∀ ops : List Op, (∀ p ∈ completed (step (ops.length + 1)) .start ops, Fresh p.1 p.2) →
      ∀ g ∈ reached (step (ops.length + 1)) .start ops, MlogfCompletes (ops.length + 1) g := by
  intro h
  obtain ⟨out, hout⟩ := h [.getMlogger (some 0) .file .trace .none] (by decide +kernel) _
    (List.mem_of_getElem? (i := 1) rfl) (fun _ _ => []) 0 .trace []
  cases hout

end Mikelibc.Log
