import Mikelibc.Lib.Parts
import Mikelibc.Log.Delivery

/-! # Each logger as if it were alone

All loggers are on one list, under one counter, in one memory. What the calls for
one of them return, print and tell its callback is what they would if there were
no other (`answers_alone`): it depends on nothing but the creation of the logger,
the calls of its handle and the ones that shut down all (`loggers_isolated`). -/
namespace Mikelibc.Log
open CSem Linked

/-! ## What the calls answer -/

/-- The call, with what it returns, 0 where it returns nothing, what it prints and the callbacks
it makes. -/
def callRet (fuel : Nat) (g : Globals) : Call → Outcome (Globals × Ret)
  | .registry o => step fuel g o
  | .mlogf strftime handle severity text => do
    let out ← mlogf fuel strftime handle severity text g
    return (g, ⟨0, out⟩)

/-- What `setloggertype` prints for a logger. -/
def retargetOutput (type : LoggerType) (path : Option String) (fopen : Except String Nat) :
    List Event :=
  if type = .file then
    match path, fopen with
    | none, _ => [.print .stderr (bytes "Warning: Requested file logger, but path is NULL\n")]
    | some _, .ok _ => []
    | some _, .error e => [.print .stderr (bytes ("logfile: " ++ e ++ "\n"))]
  else []

/-- What a setter prints, with or without a logger of the handle. -/
def complain (live : Int → Bool) (complaint : String) (h : Int) : List Event :=
  if live h then [] else [.print .stderr (bytes (complaint ++ toString h ++ "\n"))]

def printed (live : Int → Bool) : Op → List Event
  | .getMlogger none _ _ _ => [.print .stderr (bytes "FATAL: malloc returned NULL\n")]
  | .getMlogger (some _) type _ _ => retargetOutput type none (.error "")
  | .shutdownMlogger _ | .shutdownAllMloggers => []
  | .setloggertype h type path fopen =>
    if live h then retargetOutput type path fopen
    else [.print .stderr (bytes ("Invalid logger handle " ++ toString h ++ "\n"))]
  | .setloggersev h _ => complain live "Invalid logger handle " h
  | .setloggertime h _ => complain live "Invalid logger handle: " h
  | .registerMlogCallback h _ _ => complain live "Invalid logger handle " h

variable {fuel : Nat} {g g' : Globals} {nodes : Loggers} {r : Ret} {o : Op} {out : List Event}

theorem withLogger_output {h : Int} {f : Mlog → Mlog} {complaint : String} {p : Ptr}
    (hfind : findMlogger fuel h g = .ok p) (hs : withLogger fuel h f complaint g = .ok (g', out)) :
    out = if p ≠ none then [] else [.print .stderr (bytes (complaint ++ toString h ++ "\n"))] := by
  rw [withLogger, hfind, Outcome.ok_bind] at hs
  split at hs
  · next hp =>
    obtain ⟨_, _, hs⟩ := Outcome.bind_eq_ok.mp hs
    cases hs
    rw [if_pos hp]
  · next hp =>
    cases hs
    rw [if_neg hp]

theorem setloggertype_output {h : Int} {type : LoggerType} {path : Option String}
    {fopen : Except String Nat} {v : Int} {p : Ptr} (hfind : findMlogger fuel h g = .ok p)
    (hs : setloggertype fuel h type path fopen g = .ok (g', v, out)) :
    out = if p ≠ none then retargetOutput type path fopen
      else [.print .stderr (bytes ("Invalid logger handle " ++ toString h ++ "\n"))] := by
  rw [setloggertype, hfind, Outcome.ok_bind] at hs
  split at hs
  · next hp =>
    rw [if_pos hp]
    obtain ⟨_, _, hs⟩ := Outcome.bind_eq_ok.mp hs
    by_cases htype : type = .file
    · subst htype
      rw [if_pos rfl] at hs
      cases path with
      | none => cases hs; rfl
      | some path =>
        rw [if_pos (Option.some_ne_none _)] at hs
        cases fopen with
        | ok id =>
          obtain ⟨_, _, hs⟩ := Outcome.bind_eq_ok.mp hs
          cases hs
          rfl
        | error e =>
          obtain ⟨_, _, hs⟩ := Outcome.bind_eq_ok.mp hs
          obtain ⟨_, _, hs⟩ := Outcome.bind_eq_ok.mp hs
          cases hs
          rfl
    · rw [if_neg htype] at hs
      have hnone : retargetOutput type path fopen = [] := if_neg htype
      rw [hnone]
      split at hs
      all_goals
        obtain ⟨_, _, hs⟩ := Outcome.bind_eq_ok.mp hs
        cases hs
        rfl
  · next hp =>
    cases hs
    rw [if_neg hp]

/-- The handle of a new logger is known to its `setloggertype`. -/
theorem getMlogger_output (hr : Registered g nodes) (hf : nodes.length + 1 < fuel) {a : Nat}
    (hfresh : g.heap a = none) {type : LoggerType} {severity : LogSeverity} {logtime : LogTime}
    {v : Int} (hs : getMlogger fuel (some a) type severity logtime g = .ok (g', v, out)) :
    out = retargetOutput type none (.error "") := by
  have hnew := hr.notMem hfresh
  obtain ⟨_, hreq, hs⟩ := Outcome.bind_eq_ok.mp hs
  have hmax := Outcome.require_eq_ok.mp hreq
  obtain ⟨v, hadd, hs⟩ := Outcome.bind_eq_ok.mp hs
  obtain ⟨⟨_, _, out'⟩, hset, hs⟩ := Outcome.bind_eq_ok.mp hs
  cases hs
  obtain ⟨v', hadd', hlist, _⟩ := mlinkedListAdd_spec (b := a)
    (v := { Globals.vars { g with
      heap := Function.update g.heap a
        (some ⟨freshLogger type severity logtime g.nextHandle, none⟩) } with current := g.mloggers })
    (hr.list.update hnew _) (Function.update_self _ _ _) hnew (show nodes.length < fuel by omega)
  cases hadd.symm.trans hadd'
  have hr' := hr.add hlist rfl hmax
  have hfind := findMlogger_spec hr' (by simpa using hf) g.nextHandle
  have hown : lookup (nodes ++ [(a, freshLogger type severity logtime g.nextHandle)]) g.nextHandle =
      some (a, freshLogger type severity logtime g.nextHandle) := by
    rw [lookup_append hr.next_dead]
    exact if_pos rfl
  rw [hown] at hfind
  exact setloggertype_output hfind hset

theorem step_output (hr : Registered g nodes) (hf : nodes.length + 1 < fuel) (hfresh : Fresh g o)
    (hs : step fuel g o = .ok (g', r)) : r.output = printed (live nodes) o := by
  have hfind : ∀ h, findMlogger fuel h g = .ok ((lookup nodes h).map Prod.fst) :=
    findMlogger_spec hr (by omega)
  have hlive : ∀ {h : Int} {found unknown : List Event},
      (if (lookup nodes h).map Prod.fst ≠ none then found else unknown) =
        if live nodes h then found else unknown := fun {h _ _} => by
    unfold live
    cases lookup nodes h <;> rfl
  cases o with
  | getMlogger malloc type severity logtime =>
    obtain ⟨⟨_, _, out⟩, hget, hs⟩ := Outcome.bind_eq_ok.mp hs
    cases hs
    cases malloc with
    | none => cases hget; rfl
    | some a => exact getMlogger_output hr hf hfresh hget
  | shutdownMlogger h =>
    obtain ⟨_, _, hs⟩ := Outcome.bind_eq_ok.mp hs
    cases hs; rfl
  | shutdownAllMloggers =>
    obtain ⟨_, _, hs⟩ := Outcome.bind_eq_ok.mp hs
    cases hs; rfl
  | setloggertype h type path fopen =>
    obtain ⟨⟨_, _, _⟩, hset, hs⟩ := Outcome.bind_eq_ok.mp hs
    cases hs
    exact (setloggertype_output (hfind h) hset).trans hlive
  | setloggersev h | setloggertime h | registerMlogCallback h =>
    obtain ⟨⟨_, _⟩, hset, hs⟩ := Outcome.bind_eq_ok.mp hs
    cases hs
    exact (withLogger_output (hfind h) hset).trans hlive

/-! ## One logger -/

/-- The call is for the logger of the handle `h`, where `next` is the next handle: it creates the
logger, is for its handle, or shuts down all. -/
def Call.isFor (h next : Int) : Call → Bool
  | .registry (.getMlogger malloc _ _ _) => malloc.isSome && next == h
  | .registry .shutdownAllMloggers => true
  | .registry (.shutdownMlogger k) | .registry (.setloggertype k _ _ _) |
    .registry (.setloggersev k _) | .registry (.setloggertime k _) |
    .registry (.registerMlogCallback k _ _) | .mlogf _ k _ _ => k == h

def Call.next (next : Int) : Call → Int
  | .registry o => nextAfter next o
  | .mlogf .. => next

/-- The logger after a call for it, if there is one. -/
def aloneAfter (h : Int) (x : Option Mlog) : Op → Option Mlog
  | .getMlogger _ type severity logtime => some (newLogger type severity logtime h)
  | .shutdownMlogger _ | .shutdownAllMloggers => none
  | .setloggertype _ type path fopen => x.map (retarget type path fopen)
  | .setloggersev _ severity => x.map fun l => { l with severity := severity }
  | .setloggertime _ tstype => x.map fun l => { l with logtime := tstype }
  | .registerMlogCallback _ callback cbData =>
    x.map fun l => { l with callback := callback, cbData := cbData }

/-- A call for a logger that is alone, and what it answers. -/
def aloneStep (h : Int) (x : Option Mlog) : Call → Outcome (Option Mlog × Ret)
  | .registry o => return (aloneAfter h x o,
      ⟨answer h (fun _ => x.isSome) o, printed (fun _ => x.isSome) o⟩)
  | .mlogf strftime _ severity text =>
    match x with
    | some logger => do
      let out ← vmlogf strftime logger severity text
      return (x, ⟨0, out⟩)
    | none => return (x, ⟨0, if h < 0 then [] else
        [.print .stderr (bytes ("Bad logging handle: " ++ toString h ++ "\n"))]⟩)

def loggerIn (nodes : Loggers) (h : Int) : Option Mlog := (lookup nodes h).map Prod.snd

variable {h : Int} {c : Call}

theorem loggerIn_isSome : (loggerIn nodes h).isSome = live nodes h := by
  rw [loggerIn, Option.isSome_map, live]

theorem loggerIn_modify {f : Mlog → Mlog} (hkeep : ∀ x, (f x).handle = x.handle) (k : Int) :
    loggerIn (modify k f nodes) h = if h = k then (loggerIn nodes h).map f else loggerIn nodes h := by
  rw [loggerIn, loggerIn, lookup_modify hkeep]
  split
  · cases lookup nodes h <;> rfl
  · rfl

theorem loggerIn_effect (hr : Registered g nodes) (h : Int) (o : Op) :
    loggerIn (effect g.nextHandle nodes o) h =
      if (Call.registry o).isFor h g.nextHandle then aloneAfter h (loggerIn nodes h) o
      else loggerIn nodes h := by
  cases o with
  | getMlogger malloc type severity logtime =>
    cases malloc with
    | none => rfl
    | some a =>
      have hnew := hr.next_dead
      rw [← newLogger_handle type severity logtime g.nextHandle] at hnew
      rw [effect, loggerIn, lookup_append hnew, newLogger_handle]
      by_cases hh : h = g.nextHandle
      · subst hh
        simp [Call.isFor, aloneAfter]
      · simp [Call.isFor, hh, Ne.symm hh, loggerIn]
  | shutdownMlogger k =>
    rw [effect, loggerIn, lookup_remove]
    by_cases hk : h = k
    · simp [Call.isFor, hk, aloneAfter]
    · simp [Call.isFor, hk, Ne.symm hk, loggerIn]
  | shutdownAllMloggers => rfl
  | setloggertype k type path fopen =>
    rw [effect, loggerIn_modify (retarget_handle type path fopen)]
    simp only [Call.isFor, aloneAfter, beq_iff_eq, eq_comm (a := k)]
  | setloggersev k | setloggertime k | registerMlogCallback k =>
    rw [effect, loggerIn_modify (by exact fun _ => rfl)]
    simp only [Call.isFor, aloneAfter, beq_iff_eq, eq_comm (a := k)]

/-- What a call for the logger of the handle answers depends on that logger. -/
theorem answer_isFor (nodes : Loggers) (hmine : (Call.registry o).isFor h g.nextHandle = true) :
    answer g.nextHandle (live nodes) o = answer h (fun _ => (loggerIn nodes h).isSome) o ∧
      printed (live nodes) o = printed (fun _ => (loggerIn nodes h).isSome) o := by
  rw [loggerIn_isSome]
  cases o with
  | getMlogger malloc =>
    cases malloc with
    | none => cases hmine
    | some a =>
      have hh : g.nextHandle = h := by simpa [Call.isFor] using hmine
      exact ⟨hh, rfl⟩
  | shutdownAllMloggers => exact ⟨rfl, rfl⟩
  | shutdownMlogger k | setloggertype k | setloggersev k | setloggertime k | registerMlogCallback k =>
    have hk : k = h := by simpa [Call.isFor] using hmine
    subst hk
    exact ⟨rfl, rfl⟩

/-! ## Histories -/

/-- In these globals, with these calls to come, `x` is the logger of the handle. -/
def Stands (fuel : Nat) (h : Int) (cs : List Call) (g : Globals) (next : Int) (x : Option Mlog) :
    Prop :=
  g.nextHandle = next ∧ ∃ nodes, Room fuel (registryOps cs) g nodes ∧ loggerIn nodes h = x

variable {cs : List Call} {next : Int} {x : Option Mlog}

/-- A call that sets loggers up: for the logger of the handle it is what it would be alone. -/
theorem Stands.registry (hs : Stands fuel h (.registry o :: cs) g next x) (hfresh : Fresh g o)
    (hstep : step fuel g o = .ok (g', r)) :
    Stands fuel h cs g' (nextAfter next o)
      (if (Call.registry o).isFor h next then aloneAfter h x o else x) ∧
    ((Call.registry o).isFor h next = true →
      r = ⟨answer h (fun _ => x.isSome) o, printed (fun _ => x.isSome) o⟩) := by
  obtain ⟨rfl, nodes, hroom, rfl⟩ := hs
  obtain ⟨_, _, hstep', hroom', hnext, hvalue, _⟩ := Room.step (o := o) hroom hfresh
  cases hstep.symm.trans hstep'
  refine ⟨⟨hnext, _, hroom', loggerIn_effect hroom.registered h o⟩, fun hmine => ?_⟩
  have hrounds : nodes.length + ((registryOps cs).length + 1) < fuel := hroom.rounds
  have hprinted := step_output hroom.registered (by omega) hfresh hstep
  obtain ⟨hvalue', hprinted'⟩ := answer_isFor nodes hmine
  cases r
  simp only [Ret.mk.injEq]
  exact ⟨hvalue.trans hvalue', hprinted.trans hprinted'⟩

/-- A message leaves the loggers as they are, and its own logger is all it looks at. -/
theorem Stands.mlogf {strftime : Bool → String → Text} {handle : Int} {severity : LogSeverity}
    {text : Text} (hs : Stands fuel h (.mlogf strftime handle severity text :: cs) g next x)
    (hstep : callRet fuel g (.mlogf strftime handle severity text) = .ok (g', r)) :
    Stands fuel h cs g' next x ∧
    (handle = h → aloneStep h x (.mlogf strftime handle severity text) = .ok (x, r)) := by
  obtain ⟨rfl, nodes, hroom, rfl⟩ := hs
  obtain ⟨out, hlog, hstep⟩ := Outcome.bind_eq_ok.mp hstep
  cases hstep
  refine ⟨⟨rfl, nodes, hroom, rfl⟩, fun hh => ?_⟩
  subst hh
  rw [mlogf_spec hroom.registered (Nat.lt_of_le_of_lt (Nat.le_add_right _ _) hroom.rounds)] at hlog
  unfold loggerIn
  cases hl : lookup nodes handle with
  | none =>
    rw [hl] at hlog
    cases hlog
    rfl
  | some c =>
    rw [hl] at hlog
    exact Outcome.bind_eq_ok.mpr ⟨out, hlog, rfl⟩

/-- The history creates fewer than 2^31 loggers, each in memory that is not in use. -/
structure Fits (fuel : Nat) (calls : List Call) : Prop where
  rounds : (registryOps calls).length < fuel
  few : creations (registryOps calls) < 2 ^ 31
  fresh : ∀ p ∈ visits (callRet fuel) .start calls, FreshCall p.1 p.2

/-- Of a history of calls the ones that are for the logger of the handle. -/
abbrev ownCalls (h : Int) (calls : List Call) : List Call := share (Call.isFor h) Call.next id 0 calls

abbrev ownAnswers (fuel : Nat) (h : Int) (calls : List Call) : List (Call × Ret) :=
  share (Call.isFor h) Call.next Prod.fst 0 (answers (callRet fuel) .start calls)

/-- The calls for a logger answer what they answer when it is alone. -/
theorem answers_alone {calls : List Call} (hfits : Fits fuel calls) (h : Int) :
    ownAnswers fuel h calls <+: answers (aloneStep h) none (ownCalls h calls) ∧
    (AllAnswered (callRet fuel) .start calls →
      ownAnswers fuel h calls = answers (aloneStep h) none (ownCalls h calls)) := by
  refine answers_share (Stands fuel h) FreshCall ?_ ?_ calls .start 0 none
    ⟨rfl, [], Room.start hfits.rounds hfits.few, rfl⟩ hfits.fresh
  · intro c cs g next x g' r hs hfresh hmine hstep
    cases c with
    | registry o =>
      obtain ⟨hs', hr⟩ := hs.registry hfresh hstep
      rw [if_pos hmine] at hs'
      exact ⟨_, by rw [hr hmine]; rfl, hs'⟩
    | mlogf strftime handle severity text =>
      obtain ⟨hs', hown⟩ := hs.mlogf hstep
      exact ⟨x, hown (by simpa [Call.isFor] using hmine), hs'⟩
  · intro c cs g next x g' r hs hfresh hother hstep
    cases c with
    | registry o =>
      obtain ⟨hs', _⟩ := hs.registry hfresh hstep
      rwa [hother, if_neg Bool.false_ne_true] at hs'
    | mlogf => exact (hs.mlogf hstep).1

/-- The call without the address that `malloc` returns. -/
def Call.plain : Call → Call
  | .registry (.getMlogger (some _) type severity logtime) =>
    .registry (.getMlogger (some 0) type severity logtime)
  | c => c

theorem aloneStep_plain (h : Int) (x : Option Mlog) (c : Call) :
    aloneStep h x c.plain = aloneStep h x c := by
  cases c with
  | registry o =>
    cases o with
    | getMlogger malloc => cases malloc <;> rfl
    | _ => rfl
  | mlogf => rfl

/-- What can be seen of a logger: its calls with their answers. -/
def observed (fuel : Nat) (h : Int) (calls : List Call) : List (Call × Ret) :=
  (ownAnswers fuel h calls).map (Prod.map Call.plain id)

/-- **Loggers do not interfere.** Two histories that agree on the calls for one logger, whatever
they do to other loggers in between and wherever `malloc` puts them, have the same answers to these
calls: what they return, what they print and the callbacks they make. One of the two may have been
cut short by the assertion of `vmlogf`. -/
theorem loggers_isolated (h : Int) {fuel fuel' : Nat} {calls calls' : List Call}
    (hfits : Fits fuel calls) (hfits' : Fits fuel' calls')
    (hsame : (ownCalls h calls).map Call.plain = (ownCalls h calls').map Call.plain) :
    (observed fuel h calls <+: observed fuel' h calls' ∨
      observed fuel' h calls' <+: observed fuel h calls) ∧
    (AllAnswered (callRet fuel) .start calls → observed fuel' h calls' <+: observed fuel h calls) := by
  obtain ⟨hpre, heq⟩ := answers_alone hfits h
  obtain ⟨hpre', _⟩ := answers_alone hfits' h
  have hplain := answers_map (f := Call.plain) fun x c => aloneStep_plain h x c
  have hseen := hpre.map (Prod.map Call.plain id)
  have hseen' := hpre'.map (Prod.map Call.plain id)
  rw [hplain] at hseen hseen'
  rw [← hsame] at hseen'
  refine ⟨List.prefix_or_prefix_of_prefix hseen hseen', fun hends => ?_⟩
  have hall : observed fuel h calls =
      answers (aloneStep h) none ((ownCalls h calls).map Call.plain) := by
    rw [observed, heq hends, hplain]
  rw [hall]
  exact hseen'

/-- A logger that logs one message and is shut down. -/
def quiet : List Call :=
  [.registry (.getMlogger (some 9) .stderr .info .none), .mlogf (fun _ _ => []) 0 .error [104],
    .registry (.shutdownMlogger 0), .mlogf (fun _ _ => []) 0 .error [105]]

/-- The same among calls for another one, which takes over its memory. -/
def noisy : List Call :=
  [.registry (.getMlogger (some 4) .stderr .info .none),
    .registry (.getMlogger (some 2) .stdout .info .utc), .mlogf (fun _ _ => []) 1 .error [106],
    .mlogf (fun _ _ => []) 0 .error [104], .registry (.setloggersev 1 .trace),
    .registry (.shutdownMlogger 0), .registry (.getMlogger (some 4) .syslog .trace .none),
    .mlogf (fun _ _ => []) 2 .debug [107], .mlogf (fun _ _ => []) 0 .error [105]]

theorem loggers_isolated_two : observed 9 0 quiet <+: observed 9 0 noisy ∧
    (observed 9 0 quiet).length = 4 :=
  ⟨(@loggers_isolated 0 9 9 noisy quiet
    ⟨by decide, by decide, by decide +kernel⟩ ⟨by decide, by decide, by decide +kernel⟩ rfl).2
      ⟨_, rfl⟩, by decide +kernel⟩

end Mikelibc.Log
