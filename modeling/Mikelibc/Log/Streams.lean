import Mikelibc.Log.Steps

/-! # Who owns the log files

`setloggertype` opens streams, and nothing in the library closes one: a stream is
taken care of as long as one logger has it as its `logfile`. A call that takes the
stream from its logger, or the logger away, loses it for good; every other call
leaves each open stream with its owner (`streams_owned_iff`). -/
namespace Mikelibc.Log
open CSem Linked

def Mlog.holds (id : Nat) (x : Mlog) : Bool := decide (x.logfile = some (.file id))

def Mlog.holdsFile (x : Mlog) : Bool := x.logfile matches some (.file _)

def owners (id : Nat) (nodes : Loggers) : Nat := nodes.countP fun c => c.2.holds id

/-- Every stream that `fopen` has returned and nobody has closed is the `logfile` of exactly one
logger on the list. -/
def StreamsOwned (g : Globals) : Prop :=
  ∃ nodes, IsList g.heap g.mloggers nodes ∧ ∀ id ∈ g.openFiles, owners id nodes = 1

/-- The call does not take a stream from `fopen` out of use: it does not retarget a logger that
has one (save for `MLOG_FILE` without a path, which leaves `logfile` alone), nor shut it down, and
`shutdown_all_mloggers` comes only while no such stream is open. -/
def KeepsOwner (fuel : Nat) (g : Globals) : Op → Prop
  | .setloggertype h type path _ =>
    (type = .file ∧ path = none) ∨ ∀ x ∈ loggerOf fuel h g, x.holdsFile = false
  | .shutdownMlogger h => ∀ x ∈ loggerOf fuel h g, x.holdsFile = false
  | .shutdownAllMloggers => g.openFiles = []
  | .getMlogger .. | .setloggersev .. | .setloggertime .. | .registerMlogCallback .. => True

instance KeepsOwner.decide (fuel : Nat) (g : Globals) (o : Op) : Decidable (KeepsOwner fuel g o) :=
  match o with
  | .setloggertype .. => inferInstanceAs (Decidable (_ ∨ _))
  | .shutdownMlogger h =>
    inferInstanceAs (Decidable (∀ x ∈ loggerOf fuel h g, x.holdsFile = false))
  | .shutdownAllMloggers => inferInstanceAs (Decidable (_ = _))
  | .getMlogger .. | .setloggersev .. | .setloggertime .. | .registerMlogCallback .. =>
    isTrue trivial

/-- Memory and streams come from outside: neither is one that is in use. -/
def FreshStream (g : Globals) (o : Op) : Prop :=
  Fresh g o ∧ ∀ h type path fopen, o = .setloggertype h type path fopen →
    ∀ id ∈ opened type path fopen, id ∉ g.openFiles

instance FreshStream.decide (g : Globals) (o : Op) : Decidable (FreshStream g o) :=
  match o with
  | .setloggertype h type path fopen =>
    decidable_of_iff (∀ id ∈ opened type path fopen, id ∉ g.openFiles)
      ⟨fun hnew => ⟨trivial, fun _ _ _ _ ho => by cases ho; exact hnew⟩,
        fun hfresh => hfresh.2 h type path fopen rfl⟩
  | .getMlogger .. | .shutdownMlogger _ | .shutdownAllMloggers | .setloggersev .. |
    .setloggertime .. | .registerMlogCallback .. =>
    decidable_of_iff (Fresh g _) ⟨fun hfresh => ⟨hfresh, fun _ _ _ _ ho => by cases ho⟩, And.left⟩

variable {fuel id : Nat} {g g' : Globals} {nodes : Loggers} {h : Int}

/-! ## Counting owners -/

theorem owners_append (id : Nat) (l m : Loggers) : owners id (l ++ m) = owners id l + owners id m :=
  List.countP_append

theorem owners_cons (id a : Nat) (x : Mlog) (l : Loggers) :
    owners id ((a, x) :: l) = owners id l + if x.holds id then 1 else 0 := List.countP_cons

theorem holdsFile_eq_false_iff {x : Mlog} : x.holdsFile = false ↔ ∀ id, x.holds id = false := by
  unfold Mlog.holdsFile
  constructor
  · intro hx id
    rw [Mlog.holds, decide_eq_false_iff_not]
    intro hid
    rw [hid] at hx
    cases hx
  · intro hx
    split
    · next id hid => simpa [Mlog.holds, hid] using hx id
    · rfl

theorem newLogger_holds (type : LoggerType) (severity : LogSeverity) (logtime : LogTime) (h : Int) :
    (newLogger type severity logtime h).holds id = false := by
  unfold newLogger retarget freshLogger
  split
  · rfl
  · split <;> rfl

/-- After `setloggertype` a logger writes to the stream it has opened, and with `MLOG_FILE` and
no path to the one before. -/
theorem retarget_holds (type : LoggerType) (path : Option String) (fopen : Except String Nat)
    (x : Mlog) :
    (retarget type path fopen x).holds id =
      if type = .file ∧ path = none then x.holds id else decide (id ∈ opened type path fopen) := by
  by_cases htype : type = .file
  · cases path with
    | none => simp [retarget, htype, Mlog.holds]
    | some p =>
      cases fopen with
      | ok k => simp [retarget, opened, htype, Mlog.holds, eq_comm]
      | error e => simp [retarget, opened, htype, Mlog.holds]
  · by_cases hstderr : type = .stderr <;> simp [retarget, opened, htype, hstderr, Mlog.holds]

/-- Assignments to other fields change no owner. -/
theorem owners_modify {f : Mlog → Mlog} (hf : ∀ x, (f x).holds id = x.holds id) :
    owners id (modify h f nodes) = owners id nodes := by
  rw [owners, modify, List.countP_map]
  refine List.countP_congr fun c _ => ?_
  simp only [Function.comp_apply]
  split <;> simp [hf]

/-! ## One call -/

/-- A stream that no `fopen` has returned has no owner. -/
def Known (g : Globals) (nodes : Loggers) : Prop := ∀ id, id ∉ g.openFiles → owners id nodes = 0

theorem Registered.streamsOwned_iff (hr : Registered g nodes) :
    StreamsOwned g ↔ ∀ id ∈ g.openFiles, owners id nodes = 1 := by
  constructor
  · intro ⟨l, hl, howned⟩
    rw [← hl.unique hr.list]
    exact howned
  · intro howned
    exact ⟨nodes, hr.list, howned⟩

theorem Known.of_holds (hk : Known g nodes) {c : Nat × Mlog} (hc : c ∈ nodes)
    (hx : c.2.holds id = true) : id ∈ g.openFiles := by
  by_contra hid
  have hpos : 0 < owners id nodes := List.countP_pos_iff.mpr ⟨c, hc, hx⟩
  rw [hk id hid] at hpos
  exact absurd hpos (Nat.lt_irrefl 0)

/-- Changing one logger changes its own part of the count. -/
theorem owners_middle (id a : Nat) (x : Mlog) (pre post : Loggers) :
    owners id (pre ++ (a, x) :: post) =
      owners id pre + owners id post + if x.holds id then 1 else 0 := by
  rw [owners_append, owners_cons, Nat.add_assoc]

section Middle
variable {a : Nat} {x : Mlog} {pre post : Loggers}

theorem retarget_owners (hk : Known g (pre ++ (a, x) :: post)) {type : LoggerType}
    {path : Option String} {fopen : Except String Nat}
    (hnew : ∀ id ∈ opened type path fopen, id ∉ g.openFiles)
    (hfiles : g'.openFiles = opened type path fopen ++ g.openFiles) :
    Known g' (pre ++ (a, retarget type path fopen x) :: post) ∧
    ((∀ id ∈ g.openFiles, owners id (pre ++ (a, x) :: post) = 1) →
      ((∀ id ∈ g'.openFiles, owners id (pre ++ (a, retarget type path fopen x) :: post) = 1) ↔
        (type = .file ∧ path = none) ∨ x.holdsFile = false)) := by
  by_cases hkeep : type = .file ∧ path = none
  · have hsame : g'.openFiles = g.openFiles := by
      rw [hfiles, hkeep.2, opened_noPath, List.nil_append]
    have howners : ∀ id, owners id (pre ++ (a, retarget type path fopen x) :: post) =
        owners id (pre ++ (a, x) :: post) := fun id => by
      rw [owners_middle, owners_middle, retarget_holds, if_pos hkeep]
    refine ⟨fun id hid => ?_, fun hgood => iff_of_true (fun id hid => ?_) (.inl hkeep)⟩
    · rw [howners]; exact hk id (hsame ▸ hid)
    · rw [howners]; exact hgood id (hsame ▸ hid)
  · have hholds : ∀ id,
        (retarget type path fopen x).holds id = decide (id ∈ opened type path fopen) :=
      fun id => by rw [retarget_holds, if_neg hkeep]
    have hopen : ∀ id, x.holds id = true → id ∈ g.openFiles := fun id hx =>
      hk.of_holds (c := (a, x)) (by simp) hx
    simp only [hfiles, Known, List.mem_append, not_or, owners_middle, hholds,
      decide_eq_true_eq] at hk ⊢
    refine ⟨fun id hid => ?_, fun hgood => ⟨fun hafter => .inr ?_, fun hno id hid => ?_⟩⟩
    · have hzero := hk id hid.2
      rw [if_neg hid.1]
      omega
    · -- the stream it writes to has no other owner, and is not the one just opened
      refine holdsFile_eq_false_iff.mpr fun id => Bool.eq_false_iff.mpr fun hx => ?_
      have hbefore := hgood id (hopen id hx)
      have hnow := hafter id (.inr (hopen id hx))
      rw [if_pos hx] at hbefore
      rw [if_neg fun hid => hnew id hid (hopen id hx)] at hnow
      omega
    · have hx := holdsFile_eq_false_iff.mp (hno.resolve_left hkeep) id
      by_cases hopened : id ∈ opened type path fopen
      · have hzero := hk id (hnew id hopened)
        rw [if_pos hopened]
        omega
      · have hone := hgood id (hid.resolve_left hopened)
        rw [hx, if_neg Bool.false_ne_true] at hone
        rw [if_neg hopened]
        exact hone

theorem remove_owners (hk : Known g (pre ++ (a, x) :: post)) (hfiles : g'.openFiles = g.openFiles) :
    Known g' (pre ++ post) ∧ ((∀ id ∈ g.openFiles, owners id (pre ++ (a, x) :: post) = 1) →
      ((∀ id ∈ g'.openFiles, owners id (pre ++ post) = 1) ↔ x.holdsFile = false)) := by
  have hopen : ∀ id, x.holds id = true → id ∈ g.openFiles := fun id hx =>
    hk.of_holds (c := (a, x)) (by simp) hx
  simp only [hfiles, Known, owners_append, owners_cons] at hk ⊢
  refine ⟨fun id hid => ?_, fun hgood => ⟨fun hafter => ?_, fun hno id hid => ?_⟩⟩
  · have hzero := hk id hid
    omega
  · refine holdsFile_eq_false_iff.mpr fun id => Bool.eq_false_iff.mpr fun hx => ?_
    have hbefore := hgood id (hopen id hx)
    have hnow := hafter id (hopen id hx)
    rw [if_pos hx] at hbefore
    omega
  · have hx := holdsFile_eq_false_iff.mp hno id
    have hone := hgood id hid
    rw [hx, if_neg Bool.false_ne_true] at hone
    omega

end Middle

theorem Known.same {nodes' : Loggers} (hk : Known g nodes) (hfiles : g'.openFiles = g.openFiles)
    (howners : ∀ id, owners id nodes' = owners id nodes) {C : Prop} (hc : C) :
    Known g' nodes' ∧ ((∀ id ∈ g.openFiles, owners id nodes = 1) →
      ((∀ id ∈ g'.openFiles, owners id nodes' = 1) ↔ C)) := by
  simp only [Known, howners, hfiles] at hk ⊢
  exact ⟨hk, fun hgood => iff_of_true hgood hc⟩

/-- A call leaves each open stream with one owner exactly when it is one of `KeepsOwner`. -/
theorem keepsOwner_iff (hr : Registered g nodes) (hf : nodes.length < fuel) (hk : Known g nodes)
    {o : Op} (hfresh : FreshStream g o)
    (hfiles : g'.openFiles = o.opens (live nodes) ++ g.openFiles) :
    Known g' (effect g.nextHandle nodes o) ∧ ((∀ id ∈ g.openFiles, owners id nodes = 1) →
      ((∀ id ∈ g'.openFiles, owners id (effect g.nextHandle nodes o) = 1) ↔
        KeepsOwner fuel g o)) := by
  cases o with
  | getMlogger malloc type severity logtime =>
    cases malloc with
    | none => exact hk.same hfiles (fun _ => rfl) trivial
    | some a =>
      refine hk.same hfiles (fun id => ?_) trivial
      rw [effect, owners_append, owners_cons, newLogger_holds]
      rfl
  | shutdownMlogger h =>
    simp only [KeepsOwner, hr.loggerOf_eq hf, effect]
    rcases hr.cases h with hnone | ⟨pre, a, x, post, rfl, hx, hpre, hpost⟩
    · rw [remove_none hnone, lookup_none hnone]
      exact hk.same hfiles (fun _ => rfl) (by simp)
    · rw [remove_middle hx hpre hpost, lookup_middle hx hpre]
      simpa using remove_owners hk hfiles
  | shutdownAllMloggers =>
    have hsame : g'.openFiles = g.openFiles := hfiles
    simp only [Known, hsame]
    refine ⟨fun id _ => rfl, fun _ => ⟨fun hafter => ?_, fun hnone => ?_⟩⟩
    · refine List.eq_nil_iff_forall_not_mem.mpr fun id hid => ?_
      cases hafter id hid
    · have hno : g.openFiles = [] := hnone
      simp [hno]
  | setloggertype h type path fopen =>
    simp only [KeepsOwner, hr.loggerOf_eq hf, effect]
    rcases hr.cases h with hnone | ⟨pre, a, x, post, rfl, hx, hpre, hpost⟩
    · have hdead : live nodes h = false := by rw [live, lookup_none hnone]; rfl
      rw [Op.opens, hdead] at hfiles
      rw [modify_none hnone, lookup_none hnone]
      exact hk.same hfiles (fun _ => rfl) (.inr (by simp))
    · have hlive : live (pre ++ (a, x) :: post) h = true := by rw [live, lookup_middle hx hpre]; rfl
      rw [Op.opens, hlive, if_pos rfl] at hfiles
      rw [modify_middle hx hpre hpost, lookup_middle hx hpre]
      simpa using retarget_owners hk (hfresh.2 h type path fopen rfl) hfiles
  | setloggersev h severity =>
    exact hk.same hfiles
      (fun id => owners_modify (f := fun x => { x with severity := severity }) fun _ => rfl) trivial
  | setloggertime h tstype =>
    exact hk.same hfiles
      (fun id => owners_modify (f := fun x => { x with logtime := tstype }) fun _ => rfl) trivial
  | registerMlogCallback h callback cbData =>
    exact hk.same hfiles (fun id => owners_modify
      (f := fun x => { x with callback := callback, cbData := cbData }) fun _ => rfl) trivial

/-! ## Runs -/

/-- With no logger left, no stream is left either. -/
theorem StreamsOwned.closed (howned : StreamsOwned g) (hempty : g.mloggers = none) :
    g.openFiles = [] := by
  obtain ⟨nodes, hl, hone⟩ := howned
  rw [hempty] at hl
  obtain rfl := hl.unique (.nil none)
  exact List.eq_nil_iff_forall_not_mem.mpr fun id hid => by cases hone id hid

/-- **When no stream is lost.** Whatever the calls, each open stream has exactly one owner in every
state they pass through, and none is open when no logger is left, exactly when each call that
ends is one of `KeepsOwner`. -/
theorem streams_owned_iff (fuel : Nat) (ops : List Op) (hfuel : ops.length < fuel)
    (hfresh : ∀ p ∈ completed (step fuel) .start ops, FreshStream p.1 p.2) :
    (∀ g ∈ reached (step fuel) .start ops,
      StreamsOwned g ∧ (g.mloggers = none → g.openFiles = [])) ↔
      ∀ p ∈ completed (step fuel) .start ops, KeepsOwner fuel p.1 p.2 := by
  have hclosed : ∀ g, (StreamsOwned g ∧ (g.mloggers = none → g.openFiles = [])) ↔ StreamsOwned g :=
    fun g => and_iff_left_of_imp fun howned => howned.closed
  simp only [hclosed]
  refine reached_registered_iff Known (fun id _ => rfl) ⟨[], .nil none, by simp [Globals.start]⟩
    (fun _ _ h => h.1) (fun g g' nodes o hr hf hk hfresh hr' _ hfiles => ?_) ops hfuel hfresh
  rw [hr.streamsOwned_iff, hr'.streamsOwned_iff]
  exact keepsOwner_iff hr hf hk hfresh hfiles

/-- A logger is sent to a file, its severity is set, and `setloggertype` complains about a path. -/
theorem streams_owned_one :
    ∃ states, reached (step 5) .start [.getMlogger (some 0) .stdout .info .utc,
        .setloggertype 0 .file (some "log") (.ok 0), .setloggersev 0 .error,
        .setloggertype 0 .file none (.error "")] = states ∧
      states.length = 5 ∧ ∀ g ∈ states, StreamsOwned g ∧ (g.mloggers = none → g.openFiles = []) :=
  ⟨_, rfl, by decide +kernel, (streams_owned_iff 5 _ (by decide) (by decide +kernel)).mpr
    (by decide +kernel)⟩

/-- A logger that writes to a file is shut down: the stream stays open, and nobody has it. -/
theorem stream_leaks :
    ¬ ∀ ops : List Op, (∀ p ∈ completed (step (ops.length + 1)) .start ops, FreshStream p.1 p.2) →
      ∀ g ∈ reached (step (ops.length + 1)) .start ops,
        StreamsOwned g ∧ (g.mloggers = none → g.openFiles = []) := by
  intro h
  have hstate := h [.getMlogger (some 0) .stdout .info .none,
    .setloggertype 0 .file (some "log") (.ok 0), .shutdownMlogger 0] (by decide +kernel) _
    (List.mem_of_getElem? (i := 3) rfl)
  cases hstate.2 rfl

end Mikelibc.Log
