import Mikelibc.Log.Abort
import Mikelibc.Log.Map

/-! # What the callbacks are told

Histories of calls that set loggers up and calls of `mlogf`. What a history should
deliver to the callback of a logger is read off the map of `Log.Map`: a message
reaches the callback registered last, with the data registered with it, if its
severity is not below the threshold. The code tells the callback the threshold
of the logger in place of the severity of the message, so the delivery is right
exactly as long as the two agree (`delivery_iff`). -/
namespace Mikelibc.Log
open CSem Linked

inductive Call where
  | registry (o : Op)
  | mlogf (strftime : Bool → String → Text) (handle : Int) (severity : LogSeverity) (text : Text)

/-- The call, and what it prints and the callbacks it makes. -/
def callStep (fuel : Nat) (g : Globals) : Call → Outcome (Globals × List Event)
  | .registry o => do
    let (g, r) ← step fuel g o
    return (g, r.output)
  | .mlogf strftime handle severity text => do
    let out ← mlogf fuel strftime handle severity text g
    return (g, out)

structure Invocation where
  callback : Nat
  severity : LogSeverity
  message : Text
  cbData : Ptr
  deriving DecidableEq

def invocations (out : List Event) : List Invocation :=
  out.filterMap fun
    | .call callback severity message cbData => some ⟨callback, severity, message, cbData⟩
    | .print .. => none

/-- What the call makes of callbacks for the logger of the handle. Only a message is for one
logger: a callback made by any other call would count for all. -/
def deliveredTo (h : Int) : Call × List Event → List Invocation
  | (.mlogf _ handle _ _, out) => if handle = h then invocations out else []
  | (.registry _, out) => invocations out

/-! ## What should be delivered -/

/-- The callback a message should make, by what is set for its logger. -/
def Config.due (severity : LogSeverity) (text : Text) (c : Config) : List Invocation :=
  match c.callback with
  | some callback =>
    if c.severity.value ≤ severity.value then
      [⟨callback, severity, text.take (maxLog - 1), c.cbData⟩]
    else []
  | none => []

/-- What the call should make of callbacks for the logger of the handle. -/
def due (m : Handles Config) (h : Int) : Call → List Invocation
  | .mlogf _ handle severity text =>
    if handle = h then (m.value h).elim [] (Config.due severity text) else []
  | .registry _ => []

def mapAfterCall (m : Handles Config) : Call → Handles Config
  | .registry o => mapAfter m o
  | .mlogf .. => m

/-- What the calls should deliver for the logger of the handle, in order. -/
def expected (h : Int) : Handles Config → List Call → List Invocation
  | _, [] => []
  | m, c :: cs => due m h c ++ expected h (mapAfterCall m c) cs

/-- For every logger, what has been delivered is what these calls should deliver. -/
def Faithful (m : Handles Config) (done : List (Call × List Event)) : Prop :=
  ∀ h, done.flatMap (deliveredTo h) = expected h m (done.map Prod.fst)

/-- A message that reaches a callback has the severity that is the threshold of its logger. -/
def AtThreshold (fuel : Nat) (g : Globals) : Call → Prop
  | .mlogf _ handle severity _ => ∀ x ∈ loggerOf fuel handle g,
    x.callback = none ∨ severity.value < x.severity.value ∨ severity = x.severity
  | .registry _ => True

instance AtThreshold.decide (fuel : Nat) (g : Globals) (c : Call) :
    Decidable (AtThreshold fuel g c) :=
  match c with
  | .mlogf _ handle severity _ => inferInstanceAs (Decidable (∀ x ∈ loggerOf fuel handle g,
      x.callback = none ∨ severity.value < x.severity.value ∨ severity = x.severity))
  | .registry _ => isTrue trivial

/-- The call ends, or it is a message to a logger without a callback and fails the assertion. -/
def EndsOrAborts (fuel : Nat) (g : Globals) (c : Call) : Prop :=
  (∃ q, callStep fuel g c = .ok q) ∨
  (callStep fuel g c = .abort ∧ ∃ strftime handle severity text,
    c = .mlogf strftime handle severity text ∧ ∃ x ∈ loggerOf fuel handle g, x.callback = none)

def FreshCall (g : Globals) : Call → Prop
  | .registry o => Fresh g o
  | .mlogf .. => True

instance FreshCall.decide (g : Globals) (c : Call) : Decidable (FreshCall g c) :=
  match c with
  | .registry o => Fresh.decide g o
  | .mlogf .. => isTrue trivial

def registryOps (calls : List Call) : List Op :=
  calls.filterMap fun
    | .registry o => some o
    | .mlogf .. => none

variable {fuel : Nat} {g g' : Globals} {nodes : Loggers} {out : List Event}

/-! ## What the code delivers -/

@[simp] theorem invocations_nil : invocations [] = [] := rfl

@[simp] theorem invocations_print (f : Stream) (text : Text) (out : List Event) :
    invocations (.print f text :: out) = invocations out := rfl

theorem writeMessage_invocations {strftime : Bool → String → Text} {x : Mlog}
    {severity : LogSeverity} {text : Text} (hw : writeMessage strftime x severity text = .ok out) :
    invocations out = [] := by
  unfold writeMessage at hw
  split at hw
  · cases hw
  · cases hw
    by_cases hnone : x.logtime = .none <;> by_cases hutc : x.logtime = .utc <;> simp [hnone, hutc]

/-- `vmlogf` makes the callback that is due, but for the severity it passes. -/
theorem vmlogf_invocations {strftime : Bool → String → Text} {x : Mlog} {severity : LogSeverity}
    {text : Text} (hv : vmlogf strftime x severity text = .ok out) :
    invocations out =
      (x.config.due severity text).map fun i => { i with severity := x.severity } := by
  unfold vmlogf at hv
  split at hv
  · next hlow =>
    cases hv
    have hnot : ¬ x.severity.value ≤ severity.value := UInt32.not_le.mpr hlow
    cases hcallback : x.callback <;> simp [Config.due, Mlog.config, hcallback, hnot]
  · next hhigh =>
    have hle : x.severity.value ≤ severity.value := UInt32.not_lt.mp hhigh
    split at hv
    · next callback hcallback =>
      cases hv
      simp [Config.due, Mlog.config, hcallback, hle, invocations]
    · next hcallback =>
      have hdue : x.config.due severity text = [] := by simp [Config.due, Mlog.config, hcallback]
      rw [hdue, List.map_nil]
      split at hv
      · cases hv; rfl
      · obtain ⟨lines, hlines, hv⟩ := Outcome.bind_eq_ok.mp hv
        cases hv
        rw [invocations_print]
        exact writeMessage_invocations hlines
      · exact writeMessage_invocations hv
      · exact writeMessage_invocations hv
      · exact writeMessage_invocations hv
      · cases hv; rfl

theorem withLogger_invocations {h : Int} {f : Mlog → Mlog} {complaint : String}
    (hs : withLogger fuel h f complaint g = .ok (g', out)) : invocations out = [] := by
  obtain ⟨p, _, hs⟩ := Outcome.bind_eq_ok.mp hs
  split at hs
  · obtain ⟨_, _, hs⟩ := Outcome.bind_eq_ok.mp hs
    cases hs; rfl
  · cases hs; rfl

theorem setloggertype_invocations {h : Int} {type : LoggerType} {path : Option String}
    {fopen : Except String Nat} {v : Int}
    (hs : setloggertype fuel h type path fopen g = .ok (g', v, out)) : invocations out = [] := by
  obtain ⟨p, _, hs⟩ := Outcome.bind_eq_ok.mp hs
  split at hs
  · obtain ⟨_, _, hs⟩ := Outcome.bind_eq_ok.mp hs
    split at hs
    · split at hs
      · cases fopen with
        | ok id =>
          obtain ⟨_, _, hs⟩ := Outcome.bind_eq_ok.mp hs
          cases hs; rfl
        | error e =>
          obtain ⟨_, _, hs⟩ := Outcome.bind_eq_ok.mp hs
          obtain ⟨_, _, hs⟩ := Outcome.bind_eq_ok.mp hs
          cases hs; rfl
      · cases hs; rfl
    · split at hs
      all_goals
        obtain ⟨_, _, hs⟩ := Outcome.bind_eq_ok.mp hs
        cases hs; rfl
  · cases hs; rfl

/-- The calls that set loggers up make no callback. -/
theorem step_invocations {o : Op} {r : Ret} (hs : step fuel g o = .ok (g', r)) :
    invocations r.output = [] := by
  cases o with
  | getMlogger malloc type severity logtime =>
    obtain ⟨⟨_, _, out⟩, hget, hs⟩ := Outcome.bind_eq_ok.mp hs
    cases hs
    cases malloc with
    | none => cases hget; rfl
    | some a =>
      obtain ⟨_, _, hget⟩ := Outcome.bind_eq_ok.mp hget
      obtain ⟨_, _, hget⟩ := Outcome.bind_eq_ok.mp hget
      obtain ⟨⟨_, _, out⟩, hset, hget⟩ := Outcome.bind_eq_ok.mp hget
      cases hget
      exact setloggertype_invocations hset
  | shutdownMlogger h =>
    obtain ⟨_, _, hs⟩ := Outcome.bind_eq_ok.mp hs
    cases hs; rfl
  | shutdownAllMloggers =>
    obtain ⟨_, _, hs⟩ := Outcome.bind_eq_ok.mp hs
    cases hs; rfl
  | setloggertype h type path fopen =>
    obtain ⟨⟨_, _, _⟩, hset, hs⟩ := Outcome.bind_eq_ok.mp hs
    cases hs
    exact setloggertype_invocations hset
  | setloggersev | setloggertime | registerMlogCallback =>
    obtain ⟨⟨_, _⟩, hset, hs⟩ := Outcome.bind_eq_ok.mp hs
    cases hs
    exact withLogger_invocations hset

/-! ## One call -/

/-- Passing the threshold instead of the severity is right where they agree, or nothing is due. -/
theorem due_threshold_iff (x : Mlog) (severity : LogSeverity) (text : Text) :
    ((x.config.due severity text).map fun i => { i with severity := x.severity }) =
      x.config.due severity text ↔
      x.callback = none ∨ severity.value < x.severity.value ∨ severity = x.severity := by
  cases hcallback : x.callback with
  | none => simp [Config.due, Mlog.config, hcallback]
  | some callback =>
    by_cases hle : x.severity.value ≤ severity.value
    · have hnot : ¬ severity.value < x.severity.value := UInt32.not_lt.mpr hle
      simp [Config.due, Mlog.config, hcallback, hle, hnot, eq_comm]
    · have hlow : severity.value < x.severity.value := UInt32.not_le.mp hle
      simp [Config.due, Mlog.config, hcallback, hle, hlow]

variable {m : Handles Config} {next : Int} {c : Call}

/-- What a call delivers is as long as what it should deliver, and the same exactly if it is
`AtThreshold`. -/
theorem deliveredTo_spec (hr : Registered g nodes) (hf : nodes.length < fuel)
    (hs : StandsFor nodes next m) (hc : callStep fuel g c = .ok (g', out)) :
    (∀ h, (deliveredTo h (c, out)).length = (due m h c).length) ∧
    ((∀ h, deliveredTo h (c, out) = due m h c) ↔ AtThreshold fuel g c) := by
  cases c with
  | registry o =>
    obtain ⟨⟨_, r⟩, hstep, hc⟩ := Outcome.bind_eq_ok.mp hc
    cases hc
    have hnone := step_invocations hstep
    simp [deliveredTo, due, AtThreshold, hnone]
  | mlogf strftime handle severity text =>
    obtain ⟨lines, hlog, hc⟩ := Outcome.bind_eq_ok.mp hc
    cases hc
    rw [mlogf_spec hr hf] at hlog
    simp only [deliveredTo, due, AtThreshold, hr.loggerOf_eq hf, hs.value]
    cases hl : lookup nodes handle with
    | none =>
      rw [hl] at hlog
      have hnone : invocations out = [] := by
        rw [← Outcome.ok.inj hlog]
        split <;> rfl
      constructor
      · intro h
        split
        · next hh => rw [← hh, hl, hnone]; rfl
        · rfl
      · refine iff_of_true (fun h => ?_) (by simp)
        split
        · next hh => rw [← hh, hl, hnone]; rfl
        · rfl
    | some node =>
      rw [hl] at hlog
      have hdelivered := vmlogf_invocations hlog
      constructor
      · intro h
        split
        · next hh => rw [← hh, hl, hdelivered, List.length_map]; rfl
        · rfl
      · simp only [Option.map_some, Option.mem_def, Option.some.injEq, forall_eq']
        rw [← due_threshold_iff node.2 severity text]
        constructor
        · intro hall
          have hown := hall handle
          rwa [if_pos rfl, if_pos rfl, hl, hdelivered] at hown
        · intro hsame h
          split
          · next hh => rw [← hh, hl, hdelivered, hsame]; rfl
          · rfl

/-- In a history a call ends and leaves room for the rest, or it aborts. -/
theorem callStep_ends {cs : List Call} (hroom : Room fuel (registryOps (c :: cs)) g nodes)
    (hs : StandsFor nodes g.nextHandle m) (hfresh : FreshCall g c) :
    (∃ g' out nodes', callStep fuel g c = .ok (g', out) ∧ Room fuel (registryOps cs) g' nodes' ∧
      StandsFor nodes' g'.nextHandle (mapAfterCall m c)) ∨
    (callStep fuel g c = .abort ∧ EndsOrAborts fuel g c) := by
  cases c with
  | registry o =>
    obtain ⟨g', r, hstep, hroom', hnext, _, _⟩ := Room.step (o := o) hroom hfresh
    exact .inl ⟨g', r.output, _, by simp [callStep, hstep], hroom',
      hnext ▸ hs.effect hroom.registered o⟩
  | mlogf strftime handle severity text =>
    have hf : nodes.length < fuel := Nat.lt_of_le_of_lt (Nat.le_add_right _ _) hroom.rounds
    have hlog := mlogf_spec hroom.registered hf strftime handle severity text
    have hsame : ∀ out, mlogf fuel strftime handle severity text g = .ok out →
        callStep fuel g (.mlogf strftime handle severity text) = .ok (g, out) := fun out hout => by
      simp [callStep, hout]
    cases hl : lookup nodes handle with
    | none =>
      rw [hl] at hlog
      exact .inl ⟨g, _, nodes, hsame _ hlog, hroom, hs⟩
    | some node =>
      rw [hl] at hlog
      by_cases hends : ∃ out, vmlogf strftime node.2 severity text = .ok out
      · obtain ⟨out, hout⟩ := hends
        exact .inl ⟨g, out, nodes, hsame out (hlog.trans hout), hroom, hs⟩
      · have habort := vmlogf_abort hends
        have hfails : callStep fuel g (.mlogf strftime handle severity text) = .abort := by
          simp [callStep, hlog, habort.1]
        refine .inr ⟨hfails,
        .inr ⟨hfails, strftime, handle, severity, text, rfl, node.2, ?_, habort.2⟩⟩
        rw [hroom.registered.loggerOf_eq hf, hl]
        rfl

/-! ## Histories -/

/-- The run lemma. -/
theorem delivery_from : ∀ (calls : List Call) (g : Globals) (nodes : Loggers) (m : Handles Config),
    Room fuel (registryOps calls) g nodes → StandsFor nodes g.nextHandle m →
    (∀ p ∈ visits (callStep fuel) g calls, FreshCall p.1 p.2) →
    (Faithful m (answers (callStep fuel) g calls) ↔
      ∀ p ∈ completed (callStep fuel) g calls, AtThreshold fuel p.1 p.2) := by
  intro calls
  induction calls with
  | nil => intro g nodes m _ _ _; simp [Faithful, answers, completed, expected]
  | cons c cs ih =>
    intro g nodes m hroom hs hfresh
    have hfirst : FreshCall g c := hfresh (g, c) (by simp [visits])
    rcases callStep_ends hroom hs hfirst with ⟨g', out, nodes', hc, hroom', hs'⟩ | ⟨habort, _⟩
    · rw [visits_cons_ok hc, List.forall_mem_cons] at hfresh
      rw [answers_cons_ok hc, completed_cons_ok hc, List.forall_mem_cons,
        ← ih g' nodes' _ hroom' hs' hfresh.2]
      have hf : nodes.length < fuel := Nat.lt_of_le_of_lt (Nat.le_add_right _ _) hroom.rounds
      obtain ⟨hlength, hiff⟩ := deliveredTo_spec hroom.registered hf hs hc
      rw [← hiff]
      simp only [Faithful, List.flatMap_cons, List.map_cons, expected]
      constructor
      · intro hall
        exact ⟨fun h => (List.append_inj (hall h) (hlength h)).1,
          fun h => (List.append_inj (hall h) (hlength h)).2⟩
      · intro hboth h
        rw [hboth.1 h, hboth.2 h]
    · simp [Faithful, answers, completed, habort, expected]

/-- **When the callbacks are told the truth.** In a history that creates fewer than 2^31 loggers a
call ends unless it fails the assertion in `vmlogf`, for which the logger has to be without a
callback; and for every logger the sequence of its callbacks is the one due for its messages,
exactly when every message that reaches a callback has the severity that is the threshold of its
logger. -/
theorem delivery_iff (fuel : Nat) (calls : List Call) (hfuel : (registryOps calls).length < fuel)
    (hfew : creations (registryOps calls) < 2 ^ 31)
    (hfresh : ∀ p ∈ visits (callStep fuel) .start calls, FreshCall p.1 p.2) :
    (∀ p ∈ visits (callStep fuel) .start calls, EndsOrAborts fuel p.1 p.2) ∧
    (Faithful .empty (answers (callStep fuel) .start calls) ↔
      ∀ p ∈ completed (callStep fuel) .start calls, AtThreshold fuel p.1 p.2) := by
  have hstart := Room.start hfuel hfew
  refine ⟨?_, delivery_from calls .start [] .empty hstart ⟨rfl, fun _ => rfl⟩ hfresh⟩
  refine forall_visits (fun cs g => ∃ nodes m, Room fuel (registryOps cs) g nodes ∧
    StandsFor nodes g.nextHandle m) FreshCall (EndsOrAborts fuel) ?_ calls .start
    ⟨[], .empty, hstart, rfl, fun _ => rfl⟩ hfresh
  intro c cs g hinv hfresh
  obtain ⟨nodes, m, hroom, hs⟩ := hinv
  rcases callStep_ends hroom hs hfresh with ⟨g', out, nodes', hc, hroom', hs'⟩ | ⟨habort, hwhy⟩
  · refine ⟨.inl ⟨_, hc⟩, fun g'' r hc' => ?_⟩
    rw [hc] at hc'
    cases hc'
    exact ⟨nodes', _, hroom', hs'⟩
  · refine ⟨hwhy, fun g'' r hc' => ?_⟩
    rw [habort] at hc'
    cases hc'

/-- A message below the threshold and one at it, then one at a new threshold. -/
theorem delivery_at_threshold :
    ∃ done, answers (callStep 9) .start [.registry (.getMlogger (some 0) .stdout .info .none),
        .registry (.registerMlogCallback 0 (some 7) (some 8)),
        .mlogf (fun _ _ => []) 0 .debug [104], .mlogf (fun _ _ => []) 0 .info [105],
        .registry (.setloggersev 0 .error), .mlogf (fun _ _ => []) 0 .error [106]] = done ∧
      done.length = 6 ∧ Faithful .empty done :=
  ⟨_, rfl, by decide +kernel, (delivery_iff 9
    [.registry (.getMlogger (some 0) .stdout .info .none),
      .registry (.registerMlogCallback 0 (some 7) (some 8)),
      .mlogf (fun _ _ => []) 0 .debug [104], .mlogf (fun _ _ => []) 0 .info [105],
      .registry (.setloggersev 0 .error), .mlogf (fun _ _ => []) 0 .error [106]]
    (by decide) (by decide) (by decide +kernel)).2.mpr (by decide +kernel)⟩

/-- An error is told to the callback of a logger for `MLOG_INFO` and above as `MLOG_INFO`. -/
theorem delivery_tells_threshold :
    ¬ ∀ calls : List Call, creations (registryOps calls) < 2 ^ 31 →
      (∀ p ∈ visits (callStep (calls.length + 1)) .start calls, FreshCall p.1 p.2) →
      Faithful .empty (answers (callStep (calls.length + 1)) .start calls) := by
  intro h
  have hsame := h [.registry (.getMlogger (some 0) .stdout .info .none),
    .registry (.registerMlogCallback 0 (some 7) (some 8)), .mlogf (fun _ _ => []) 0 .error [104]]
    (by decide) (by decide +kernel) 0
  revert hsame
  decide +kernel

end Mikelibc.Log
