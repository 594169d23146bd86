import Mikelibc.Log.Registry

/-! # What a call does to the list of loggers

`effect` is the list a call leaves, `answer` what it returns and `nextAfter` the
next handle; `step_spec` says so of the code, whatever the call. Then the lists
are read by handle: what each effect does to the logger of any handle. -/
namespace Mikelibc.Log
open CSem Linked

/-- The loggers after the call, where `next` is the next handle. -/
def effect (next : Int) (nodes : Loggers) : Op → Loggers
  | .getMlogger none _ _ _ => nodes
  | .getMlogger (some a) type severity logtime => nodes ++ [(a, newLogger type severity logtime next)]
  | .shutdownMlogger h => remove h nodes
  | .shutdownAllMloggers => []
  | .setloggertype h type path fopen => modify h (retarget type path fopen) nodes
  | .setloggersev h severity => modify h (fun x => { x with severity := severity }) nodes
  | .setloggertime h tstype => modify h (fun x => { x with logtime := tstype }) nodes
  | .registerMlogCallback h callback cbData =>
    modify h (fun x => { x with callback := callback, cbData := cbData }) nodes

def nextAfter (next : Int) : Op → Int
  | .getMlogger (some _) _ _ _ => next + 1
  | _ => next

/-- What the call returns, with or without a logger of its handle. -/
def answer (next : Int) (live : Int → Bool) : Op → Int
  | .getMlogger none _ _ _ => -1
  | .getMlogger (some _) _ _ _ => next
  | .shutdownMlogger h => if live h then 1 else 0
  | .setloggertype h type path fopen => if live h then retargetValue type path fopen else 0
  | _ => 0

def Op.target : Op → Option Int
  | .getMlogger .. | .shutdownAllMloggers => none
  | .shutdownMlogger h | .setloggertype h _ _ _ | .setloggersev h _ | .setloggertime h _ |
    .registerMlogCallback h _ _ => some h

/-- The stream the call opens, if there is a logger of its handle. -/
def Op.opens (live : Int → Bool) : Op → List Nat
  | .setloggertype h type path fopen => if live h then opened type path fopen else []
  | _ => []

/-- The call neither adds a logger nor takes one away. -/
def Op.assigns : Op → Bool
  | .getMlogger .. | .shutdownMlogger _ | .shutdownAllMloggers => false
  | .setloggertype .. | .setloggersev .. | .setloggertime .. | .registerMlogCallback .. => true

def Fresh (g : Globals) : Op → Prop
  | .getMlogger (some a) _ _ _ => g.heap a = none
  | _ => True

instance Fresh.decide (g : Globals) (o : Op) : Decidable (Fresh g o) :=
  match o with
  | .getMlogger (some a) _ _ _ =>
    decidable_of_iff ((g.heap a).isNone = true) Option.isNone_iff_eq_none
  | .getMlogger none _ _ _ | .shutdownMlogger _ | .shutdownAllMloggers | .setloggertype .. |
    .setloggersev .. | .setloggertime .. | .registerMlogCallback .. => isTrue trivial

variable {fuel : Nat} {g g' : Globals} {nodes : Loggers} {r : Ret} {o : Op}

theorem length_effect (next : Int) (nodes : Loggers) (o : Op) :
    (effect next nodes o).length ≤ nodes.length + 1 := by
  cases o with
  | getMlogger malloc => cases malloc <;> simp [effect]
  | shutdownMlogger h => exact Nat.le_succ_of_le (List.length_filter_le _ _)
  | shutdownAllMloggers => exact Nat.zero_le _
  | setloggertype | setloggersev | setloggertime | registerMlogCallback => simp [effect, modify]

/-- A call that assigns does so to the logger of its handle, and not to the field `handle`. -/
theorem effect_assigns (ho : o.assigns = true) :
    ∃ h f, o.target = some h ∧ (∀ x, (f x).handle = x.handle) ∧
      ∀ next nodes, effect next nodes o = modify h f nodes := by
  cases o with
  | getMlogger | shutdownMlogger | shutdownAllMloggers => cases ho
  | setloggertype h type path fopen =>
    exact ⟨h, _, rfl, retarget_handle type path fopen, fun _ _ => rfl⟩
  | setloggersev h severity =>
    exact ⟨h, fun x => { x with severity := severity }, rfl, fun _ => rfl, fun _ _ => rfl⟩
  | setloggertime h tstype =>
    exact ⟨h, fun x => { x with logtime := tstype }, rfl, fun _ => rfl, fun _ _ => rfl⟩
  | registerMlogCallback h callback cbData =>
    exact ⟨h, fun x => { x with callback := callback, cbData := cbData }, rfl, fun _ => rfl,
      fun _ _ => rfl⟩

theorem lookup_eq_none {h : Int} :
    lookup nodes h = none ↔ ∀ c ∈ nodes, mloggerCheck h c.2 = false := by
  simp [lookup, List.find?_eq_none]

theorem lookup_eq_some {h : Int} {c : Nat × Mlog} (hc : lookup nodes h = some c) :
    c ∈ nodes ∧ c.2.handle = h := by
  have hx := List.find?_some hc
  exact ⟨List.mem_of_find?_eq_some hc, by simpa [mloggerCheck] using hx⟩

theorem lookup_isSome {h : Int} :
    (lookup nodes h).isSome ↔ ∃ c ∈ nodes, mloggerCheck h c.2 = true := by
  simp [lookup, List.find?_isSome]

theorem Registered.lookup_of_mem (hr : Registered g nodes) {c : Nat × Mlog} (hc : c ∈ nodes) :
    lookup nodes c.2.handle = some c := by
  have hself : mloggerCheck c.2.handle c.2 = true := by simp [mloggerCheck]
  rcases hr.cases c.2.handle with hnone | ⟨pre, a, x, post, rfl, hx, hpre, hpost⟩
  · simp [hnone c hc] at hself
  · rw [lookup_middle hx hpre]
    simp only [List.mem_append, List.mem_cons] at hc
    rcases hc with hc | rfl | hc
    · simp [hpre c hc] at hself
    · rfl
    · simp [hpost c hc] at hself

theorem findMlogger_load (hr : Registered g nodes) {c : Nat × Mlog} (hc : c ∈ nodes) :
    ∃ n, g.heap.load (some c.1) = .ok ⟨c.2, n⟩ := by
  obtain ⟨n, ha⟩ := hr.list.cell (a := c.1) (x := c.2) hc
  exact ⟨n, Store.load_of ha⟩

def loggerOf (fuel : Nat) (h : Int) (g : Globals) : Option Mlog :=
  match findMlogger fuel h g with
  | .ok p => match g.heap.load p with
    | .ok node => some node.payload
    | _ => none
  | _ => none

theorem Registered.loggerOf_eq (hr : Registered g nodes) (hf : nodes.length < fuel) (h : Int) :
    loggerOf fuel h g = (lookup nodes h).map Prod.snd := by
  rw [loggerOf, findMlogger_spec hr hf]
  cases hc : lookup nodes h with
  | none => rfl
  | some c =>
    obtain ⟨n, hload⟩ := findMlogger_load hr (lookup_eq_some hc).1
    simp [hload]

/-- `mlogf` logs through the logger of the handle, or complains. -/
theorem mlogf_spec (hr : Registered g nodes) (hf : nodes.length < fuel)
    (strftime : Bool → String → Text) (handle : Int) (severity : LogSeverity) (text : Text) :
    mlogf fuel strftime handle severity text g = match lookup nodes handle with
      | some c => vmlogf strftime c.2 severity text
      | none => .ok (if handle < 0 then [] else
        [.print .stderr (bytes ("Bad logging handle: " ++ toString handle ++ "\n"))]) := by
  have hfind := findMlogger_spec hr hf handle
  by_cases hneg : handle < 0
  · have hnone : lookup nodes handle = none := lookup_eq_none.mpr fun c hc => by
      have := (hr.range c.2.handle (List.mem_map_of_mem hc)).1
      have hne : c.2.handle ≠ handle := by omega
      simp [mloggerCheck, hne]
    simp [mlogf, hneg, hnone]
  · cases hc : lookup nodes handle with
    | none => simp [mlogf, hneg, hfind, hc]
    | some c =>
      obtain ⟨n, hload⟩ := findMlogger_load hr (lookup_eq_some hc).1
      simp [mlogf, hneg, hfind, hc, hload]

def live (nodes : Loggers) (h : Int) : Bool := (lookup nodes h).isSome

@[simp] theorem live_nil (h : Int) : live [] h = false := rfl

/-- One call: it ends, `effect` is what it does to the list, `answer` what it returns and
`Op.opens` the stream it opens, and without a logger of its handle it changes nothing. -/
theorem step_spec (hr : Registered g nodes) (hf : nodes.length + 1 < fuel) (hfresh : Fresh g o)
    (hmax : nextAfter g.nextHandle o ≤ intMax) :
    ∃ g' r, step fuel g o = .ok (g', r) ∧ Registered g' (effect g.nextHandle nodes o) ∧
      g'.nextHandle = nextAfter g.nextHandle o ∧ r.value = answer g.nextHandle (live nodes) o ∧
      g'.openFiles = o.opens (live nodes) ++ g.openFiles ∧
      ∀ h ∈ o.target, live nodes h = false → g' = g := by
  have hf' : nodes.length < fuel := by omega
  have hdead : ∀ {h}, live nodes h = false → ∀ c ∈ nodes, mloggerCheck h c.2 = false := fun hl =>
    lookup_eq_none.mp (by simpa [live] using hl)
  have setter : ∀ (h : Int) (f : Mlog → Mlog) (complaint : String), (∀ x, (f x).handle = x.handle) →
      ∃ g' out, withLogger fuel h f complaint g = .ok (g', out) ∧ Registered g' (modify h f nodes) ∧
        g'.nextHandle = g.nextHandle ∧ g'.openFiles = g.openFiles ∧
        (live nodes h = false → g' = g) := by
    intro h f complaint hkeep
    obtain ⟨heap, out, hs, hr', hsame⟩ := withLogger_spec hr hf' h hkeep complaint
    exact ⟨_, out, hs, hr', rfl, rfl, fun hl => by rw [hsame (hdead hl)]⟩
  cases o with
  | getMlogger malloc type severity logtime =>
    cases malloc with
    | none => exact ⟨g, ⟨-1, _⟩, rfl, hr, rfl, rfl, rfl, fun _ h => by simp [Op.target] at h⟩
    | some a =>
      obtain ⟨g', out, hs, hr', hnext, hfiles⟩ :=
        getMlogger_spec hr hf (hr.notMem hfresh) hmax type severity logtime
      exact ⟨g', ⟨g.nextHandle, out⟩, by simp [step, hs], hr', hnext, rfl, hfiles,
        fun _ h => by simp [Op.target] at h⟩
  | shutdownMlogger h =>
    obtain ⟨g', v, hs, hr', hnext, hfiles, hsame, hlive⟩ := shutdownMlogger_spec hr hf' h
    refine ⟨g', ⟨v, []⟩, by simp [step, hs], hr', hnext, ?_, hfiles, fun k hk hl => ?_⟩
    · cases hl : live nodes h with
      | false => simp [answer, hl, (hsame (hdead hl)).2]
      | true => simp [answer, hl, hlive (lookup_isSome.mp hl)]
    · cases hk
      exact (hsame (hdead hl)).1
  | shutdownAllMloggers =>
    obtain ⟨g', hs, hr', hnext, hfiles⟩ := shutdownAllMloggers_spec hr hf'
    exact ⟨g', ⟨0, []⟩, by simp [step, hs], hr', hnext, rfl, hfiles,
      fun _ h => by simp [Op.target] at h⟩
  | setloggertype h type path fopen =>
    obtain ⟨heap, files, v, out, hs, hr', hsame, hlive⟩ := setloggertype_spec hr hf' h type path fopen
    refine ⟨_, ⟨v, out⟩, by simp [step, hs], hr', rfl, ?_, ?_, fun k hk hl => ?_⟩
    · cases hl : live nodes h with
      | false => simp [answer, hl, (hsame (hdead hl)).2.2]
      | true => simp [answer, hl, (hlive (lookup_isSome.mp hl)).1]
    · cases hl : live nodes h with
      | false => simp [Op.opens, hl, (hsame (hdead hl)).2.1]
      | true => simp [Op.opens, hl, (hlive (lookup_isSome.mp hl)).2]
    · cases hk
      obtain ⟨rfl, rfl, _⟩ := hsame (hdead hl)
      rfl
  | setloggersev h severity =>
    obtain ⟨g', out, hs, hr', hnext, hfiles, hsame⟩ :=
      setter h (fun x => { x with severity := severity }) "Invalid logger handle " fun _ => rfl
    exact ⟨g', ⟨0, out⟩, by simp [step, setloggersev, hs], hr', hnext, rfl, hfiles,
      fun k hk => by cases hk; exact hsame⟩
  | setloggertime h tstype =>
    obtain ⟨g', out, hs, hr', hnext, hfiles, hsame⟩ :=
      setter h (fun x => { x with logtime := tstype }) "Invalid logger handle: " fun _ => rfl
    exact ⟨g', ⟨0, out⟩, by simp [step, setloggertime, hs], hr', hnext, rfl, hfiles,
      fun k hk => by cases hk; exact hsame⟩
  | registerMlogCallback h callback cbData =>
    obtain ⟨g', out, hs, hr', hnext, hfiles, hsame⟩ := setter h
      (fun x => { x with callback := callback, cbData := cbData }) "Invalid logger handle "
      fun _ => rfl
    exact ⟨g', ⟨0, out⟩, by simp [step, registerMlogCallback, hs], hr', hnext, rfl, hfiles,
      fun k hk => by cases hk; exact hsame⟩

/-- A call that ends has not counted handles past `INT_MAX`. -/
theorem step_next_le (hr : Registered g nodes) (hs : step fuel g o = .ok (g', r)) :
    nextAfter g.nextHandle o ≤ intMax := by
  cases o with
  | getMlogger malloc =>
    cases malloc with
    | none => exact hr.next
    | some a =>
      obtain ⟨_, hget, _⟩ := Outcome.bind_eq_ok.mp hs
      obtain ⟨_, hreq, _⟩ := Outcome.bind_eq_ok.mp hget
      exact Outcome.require_eq_ok.mp hreq
  | _ => exact hr.next

theorem step_effect (hr : Registered g nodes) (hf : nodes.length + 1 < fuel) (hfresh : Fresh g o)
    (hs : step fuel g o = .ok (g', r)) :
    Registered g' (effect g.nextHandle nodes o) ∧
      g'.openFiles = o.opens (live nodes) ++ g.openFiles := by
  obtain ⟨_, _, hs', hr', _, _, hfiles, _⟩ := step_spec hr hf hfresh (step_next_le hr hs)
  rw [hs] at hs'
  cases hs'
  exact ⟨hr', hfiles⟩

/-- **The rule for runs.** `J` is an invariant of the globals and the list of loggers, and among
its states a call from a good one leads to a good one exactly when it meets `C`. Then the states
that calls pass through are all good exactly when each call that ends meets `C`. -/
theorem reached_registered_iff {Good : Globals → Prop} {C Env : Globals → Op → Prop}
    (J : Globals → Loggers → Prop) (hJ : J .start []) (hstart : Good .start)
    (henv : ∀ g o, Env g o → Fresh g o)
    (hstep : ∀ g g' nodes o, Registered g nodes → nodes.length < fuel → J g nodes → Env g o →
      Registered g' (effect g.nextHandle nodes o) → (effect g.nextHandle nodes o).length < fuel →
      g'.openFiles = o.opens (live nodes) ++ g.openFiles →
      J g' (effect g.nextHandle nodes o) ∧ (Good g → (Good g' ↔ C g o)))
    (ops : List Op) (hfuel : ops.length < fuel)
    (hcalls : ∀ p ∈ completed (step fuel) .start ops, Env p.1 p.2) :
    (∀ g ∈ reached (step fuel) .start ops, Good g) ↔
      ∀ p ∈ completed (step fuel) .start ops, C p.1 p.2 := by
  -- a call adds one logger at most, so the rounds suffice as long as they do for every call to come
  refine reached_good_iff
    (fun os g => ∃ nodes, Registered g nodes ∧ nodes.length + os.length < fuel ∧ J g nodes)
    Good Env C ?_ ops .start ⟨[], .start, by simpa using hfuel, hJ⟩ hstart hcalls
  intro o os g g' r hnodes henv' hs
  obtain ⟨nodes, hr, hf, hj⟩ := hnodes
  rw [List.length_cons] at hf
  obtain ⟨hr', hfiles⟩ := step_effect hr (by omega) (henv g o henv') hs
  have hlen := length_effect g.nextHandle nodes o
  obtain ⟨hj', hgood⟩ := hstep g g' nodes o hr (by omega) hj henv' hr' (by omega) hfiles
  exact ⟨⟨_, hr', by omega, hj'⟩, hgood⟩

/-- The rule where `P` says of the list what `Good` says of the globals. -/
theorem reached_iff {Good : Globals → Prop} {C : Globals → Op → Prop} (P : Loggers → Prop)
    (hstart : P [])
    (hgood : ∀ g nodes, Registered g nodes → nodes.length < fuel → (Good g ↔ P nodes))
    (hstep : ∀ g nodes o, Registered g nodes → nodes.length < fuel → P nodes →
      (P (effect g.nextHandle nodes o) ↔ C g o))
    (ops : List Op) (hfuel : ops.length < fuel)
    (hfresh : ∀ p ∈ completed (step fuel) .start ops, Fresh p.1 p.2) :
    (∀ g ∈ reached (step fuel) .start ops, Good g) ↔
      ∀ p ∈ completed (step fuel) .start ops, C p.1 p.2 := by
  refine reached_registered_iff (fun _ _ => True) trivial
    ((hgood _ _ .start (by simpa using Nat.zero_lt_of_lt hfuel)).mpr hstart) (fun _ _ h => h)
    (fun g g' nodes o hr hf _ _ hr' hf' _ => ⟨trivial, fun hg => ?_⟩) ops hfuel hfresh
  rw [hgood _ _ hr' hf']
  exact hstep g nodes o hr hf ((hgood g nodes hr hf).mp hg)

/-! ## The loggers by handle -/

section Handles
variable {h k : Int}

theorem lookup_append {a : Nat} {x : Mlog} (hnew : lookup nodes x.handle = none) :
    lookup (nodes ++ [(a, x)]) k = if k = x.handle then some (a, x) else lookup nodes k := by
  rw [lookup, List.find?_append]
  change (lookup nodes k).or _ = _
  by_cases hk : k = x.handle
  · subst hk
    simp [hnew, mloggerCheck]
  · simp [hk, mloggerCheck, Ne.symm hk]

theorem lookup_modify {f : Mlog → Mlog} (hkeep : ∀ x, (f x).handle = x.handle) :
    lookup (modify h f nodes) k =
      if k = h then (lookup nodes k).map fun c => (c.1, f c.2) else lookup nodes k := by
  have hsame : (fun c : Nat × Mlog => mloggerCheck k c.2) ∘
      (fun c => if mloggerCheck h c.2 then (c.1, f c.2) else c) = fun c => mloggerCheck k c.2 := by
    funext c
    simp only [Function.comp_apply]
    split <;> simp [mloggerCheck, hkeep]
  rw [lookup, modify, List.find?_map, hsame]
  change Option.map _ (lookup nodes k) = _
  cases hl : lookup nodes k with
  | none => simp
  | some c =>
    have hc := (lookup_eq_some hl).2
    by_cases hk : k = h <;> simp [mloggerCheck, hc, hk]

theorem lookup_remove : lookup (remove h nodes) k = if k = h then none else lookup nodes k := by
  unfold lookup remove
  rw [List.find?_filter]
  by_cases hk : k = h
  · simp [hk]
  · rw [if_neg hk]
    congr 1
    funext c
    by_cases hc : c.2.handle = k <;> simp [mloggerCheck, hc, hk]

theorem Registered.next_dead (hr : Registered g nodes) : lookup nodes g.nextHandle = none :=
  lookup_eq_none.mpr fun c hc => by
    have := (hr.range c.2.handle (List.mem_map_of_mem hc)).2
    simp [mloggerCheck, Int.ne_of_lt this]

end Handles

end Mikelibc.Log
