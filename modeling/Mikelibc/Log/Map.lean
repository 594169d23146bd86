import Mathlib.Data.List.Induction
import Mikelibc.Log.Steps
import Mikelibc.Lib.Handles

/-! # The registry is a map from handles to configurations

`mapStep` is what the calls are for: a map from the handles of the loggers to
what has been set for them. The list of loggers stands for such a map, and every
call does to the list what `mapStep` does to the map (`registry_refines_map`).
What has been issued and shut down is read off the calls and their answers. -/
namespace Mikelibc.Log
open CSem Linked

structure Config where
  severity : LogSeverity
  logtime : LogTime
  callback : Ptr
  cbData : Ptr
  deriving DecidableEq

def Mlog.config (x : Mlog) : Config := ⟨x.severity, x.logtime, x.callback, x.cbData⟩

def mapAfter (m : Handles Config) : Op → Handles Config
  | .getMlogger none _ _ _ | .setloggertype .. => m
  | .getMlogger (some _) _ severity logtime => m.issue ⟨severity, logtime, none, none⟩
  | .shutdownMlogger h => m.drop h
  | .shutdownAllMloggers => m.clear
  | .setloggersev h severity => m.adjust h fun c => { c with severity := severity }
  | .setloggertime h tstype => m.adjust h fun c => { c with logtime := tstype }
  | .registerMlogCallback h callback cbData =>
    m.adjust h fun c => { c with callback := callback, cbData := cbData }

/-- A call on the map, and what it returns. -/
def mapStep (m : Handles Config) (o : Op) : Handles Config × Int :=
  (mapAfter m o, answer m.next (fun h => (m.value h).isSome) o)

structure StandsFor (nodes : Loggers) (next : Int) (m : Handles Config) : Prop where
  next : m.next = next
  value : ∀ h, m.value h = (lookup nodes h).map fun c => c.2.config

variable {fuel : Nat} {g : Globals} {nodes : Loggers} {m : Handles Config} {o : Op}

theorem StandsFor.live {next : Int} (hs : StandsFor nodes next m) :
    (fun h => (m.value h).isSome) = live nodes := by
  funext h
  simp [hs.value, Log.live]

/-- Assigning to the logger of a handle adjusts its configuration. -/
theorem StandsFor.modify {next : Int} (hs : StandsFor nodes next m) (h : Int) (f : Mlog → Mlog)
    (f' : Config → Config) (hkeep : ∀ x, (f x).handle = x.handle)
    (hf : ∀ x, (f x).config = f' x.config) :
    StandsFor (modify h f nodes) next (m.adjust h f') := by
  refine ⟨hs.next, fun k => ?_⟩
  rw [Handles.value_adjust, hs.value, lookup_modify hkeep]
  by_cases hk : k = h <;> cases lookup nodes k <;> simp [hk, hf]

theorem retarget_config (type : LoggerType) (path : Option String) (fopen : Except String Nat)
    (x : Mlog) :
    (retarget type path fopen x).config = x.config := by
  unfold retarget
  split
  · split <;> rfl
  · rfl

/-- Each call does to the list what it does to the map. -/
theorem StandsFor.effect (hr : Registered g nodes) (hs : StandsFor nodes g.nextHandle m) (o : Op) :
    StandsFor (effect g.nextHandle nodes o) (nextAfter g.nextHandle o) (mapAfter m o) := by
  cases o with
  | getMlogger malloc type severity logtime =>
    cases malloc with
    | none => exact hs
    | some a =>
      have hnew := hr.next_dead
      rw [← newLogger_handle type severity logtime g.nextHandle] at hnew
      refine ⟨by simp [mapAfter, nextAfter, hs.next], fun k => ?_⟩
      rw [mapAfter, Handles.value_issue, Log.effect, lookup_append hnew, newLogger_handle, hs.next]
      by_cases hk : k = g.nextHandle
      · simp [hk, newLogger, retarget_config]
        rfl
      · simp [hk, hs.value]
  | shutdownMlogger h =>
    refine ⟨hs.next, fun k => ?_⟩
    rw [mapAfter, Handles.value_drop, Log.effect, lookup_remove]
    by_cases hk : k = h <;> simp [hk, hs.value]
  | shutdownAllMloggers => exact ⟨hs.next, fun k => rfl⟩
  | setloggertype h type path fopen =>
    refine ⟨hs.next, fun k => ?_⟩
    rw [mapAfter, Log.effect, lookup_modify (retarget_handle type path fopen), hs.value]
    by_cases hk : k = h <;> cases lookup nodes k <;> simp [hk, retarget_config]
  | setloggersev h severity =>
    exact hs.modify h (fun x => { x with severity := severity })
      (fun c => { c with severity := severity })
      (fun _ => rfl) fun _ => rfl
  | setloggertime h tstype =>
    exact hs.modify h (fun x => { x with logtime := tstype }) (fun c => { c with logtime := tstype })
      (fun _ => rfl) fun _ => rfl
  | registerMlogCallback h callback cbData =>
    exact hs.modify h (fun x => { x with callback := callback, cbData := cbData })
      (fun c => { c with callback := callback, cbData := cbData }) (fun _ => rfl) fun _ => rfl

/-! ## What has been issued and shut down -/

/-- The call issues the handle: `get_mlogger`, with memory for the logger, returns it. -/
def Issues (h : Int) : Op × Int → Prop
  | (.getMlogger (some _) _ _ _, value) => value = h
  | _ => False

/-- The call shuts the handle down, if it is in use. -/
def Shuts (h : Int) : Op → Prop
  | .shutdownMlogger k => k = h
  | .shutdownAllMloggers => True
  | _ => False

/-- One of the calls, given with their answers, has issued the handle. -/
def Issued (h : Int) (calls : List (Op × Int)) : Prop := ∃ c ∈ calls, Issues h c

def ShutDown (h : Int) (calls : List (Op × Int)) : Prop :=
  ∃ before c after, calls = before ++ c :: after ∧ Issued h before ∧ Shuts h c.1

theorem issued_snoc {h : Int} {calls : List (Op × Int)} {c : Op × Int} :
    Issued h (calls ++ [c]) ↔ Issued h calls ∨ Issues h c := by
  simp only [Issued, List.mem_append, List.mem_singleton, or_and_right, exists_or, exists_eq_left]

theorem shutDown_snoc {h : Int} {calls : List (Op × Int)} {c : Op × Int} :
    ShutDown h (calls ++ [c]) ↔ ShutDown h calls ∨ Issued h calls ∧ Shuts h c.1 := by
  constructor
  · intro hs
    obtain ⟨before, d, after, hsplit, hissued, hshuts⟩ := hs
    rcases List.eq_nil_or_concat after with rfl | ⟨after, e, rfl⟩
    · obtain ⟨rfl, hd⟩ := List.append_inj' hsplit rfl
      cases hd
      exact .inr ⟨hissued, hshuts⟩
    · rw [List.concat_eq_append, ← List.cons_append, ← List.append_assoc] at hsplit
      exact .inl ⟨before, d, after, (List.append_inj' hsplit rfl).1, hissued, hshuts⟩
  · intro hs
    rcases hs with ⟨before, d, after, rfl, hissued, hshuts⟩ | ⟨hissued, hshuts⟩
    · exact ⟨before, d, after ++ [c], by simp, hissued, hshuts⟩
    · exact ⟨calls, c, [], rfl, hissued, hshuts⟩

theorem ShutDown.issued {h : Int} {calls : List (Op × Int)} (hs : ShutDown h calls) :
    Issued h calls := by
  obtain ⟨before, c, after, rfl, ⟨d, hd, hissues⟩, _⟩ := hs
  exact ⟨d, List.mem_append_left _ hd, hissues⟩

def mapCalls (ops : List Op) : List (Op × Int) := ops.zip (runPure mapStep .empty ops).2

def mapOf (ops : List Op) : Handles Config := (runPure mapStep .empty ops).1

theorem mapOf_snoc (ops : List Op) (o : Op) : mapOf (ops ++ [o]) = mapAfter (mapOf ops) o := by
  rw [mapOf, runPure_snoc]
  rfl

theorem mapCalls_snoc (ops : List Op) (o : Op) :
    mapCalls (ops ++ [o]) = mapCalls ops ++ [(o, (mapStep (mapOf ops) o).2)] := by
  rw [mapCalls, runPure_snoc, List.zip_append (length_runPure _ _ _).symm]
  rfl

/-- The handles issued are those before the next one. -/
theorem issued_iff (ops : List Op) (h : Int) :
    Issued h (mapCalls ops) ↔ 0 ≤ h ∧ h < (mapOf ops).next := by
  induction ops using List.reverseRecOn with
  | nil => simp [Issued, mapCalls, mapOf, runPure]
  | append_singleton ops o ih =>
    rw [mapCalls_snoc, issued_snoc, ih, mapOf_snoc]
    cases o with
    | getMlogger malloc =>
      cases malloc with
      | none => simp [Issues, mapAfter]
      | some a =>
        have := (mapOf ops).nonneg
        simp only [Issues, mapStep, answer, mapAfter, Handles.next_issue]
        omega
    | _ => simp [Issues, mapAfter]

/-- A handle has no configuration exactly when it has not been issued or been shut down. -/
theorem mapOf_none_iff (ops : List Op) (h : Int) :
    (mapOf ops).value h = none ↔ ¬ Issued h (mapCalls ops) ∨ ShutDown h (mapCalls ops) := by
  induction ops using List.reverseRecOn with
  | nil => simp [Issued, mapCalls, mapOf, runPure]
  | append_singleton ops o ih =>
    -- a handle with a value is one that has been issued
    have hgiven := (mapOf ops).given h
    rw [← issued_iff] at hgiven
    rw [mapCalls_snoc, issued_snoc, shutDown_snoc, mapOf_snoc]
    cases o with
    | getMlogger malloc type severity logtime =>
      cases malloc with
      | none => simp [Issues, Shuts, mapAfter, ih]
      | some a =>
        simp only [Issues, Shuts, mapStep, answer, mapAfter, Handles.value_issue, and_false, or_false]
        by_cases hh : h = (mapOf ops).next
        · have hnew : ¬ Issued h (mapCalls ops) := fun hi => by
            rw [issued_iff] at hi
            omega
          have hopen : ¬ ShutDown h (mapCalls ops) := fun hs => hnew hs.issued
          simp [hh ▸ hopen, hh]
        · simp [hh, ih, eq_comm]
    | shutdownMlogger k =>
      by_cases hk : h = k
      · simp [Issues, Shuts, mapAfter, Handles.value_drop, hk]
        tauto
      · simp [Issues, Shuts, mapAfter, Handles.value_drop, hk, Ne.symm hk, ih]
    | shutdownAllMloggers =>
      simp [Issues, Shuts, mapAfter]
      tauto
    | setloggertype | setloggersev | setloggertime | registerMlogCallback =>
      simp [Issues, Shuts, mapAfter, ih]

/-! ## What a call leaves alone -/

/-- The handle a call with this answer is about: its argument, or the one it issues. -/
def Op.about (value : Int) : Op → Option Int
  | .getMlogger .. => some value
  | .shutdownMlogger h | .setloggertype h _ _ _ | .setloggersev h _ | .setloggertime h _ |
    .registerMlogCallback h _ _ => some h
  | .shutdownAllMloggers => none

/-- The loggers of other handles keep their nodes, their fields and their order; a call that
only assigns keeps every logger in its place; and a call about an unknown handle changes nothing
and returns 0. -/
def LeavesOthers (g : Globals) (o : Op) (g' : Globals) (value : Int) : Prop :=
  ∃ nodes nodes', IsList g.heap g.mloggers nodes ∧ IsList g'.heap g'.mloggers nodes' ∧
    (∀ h ∈ o.about value, remove h nodes' = remove h nodes) ∧
    (o.assigns = true →
      nodes'.map (fun c => (c.1, c.2.handle)) = nodes.map fun c => (c.1, c.2.handle)) ∧
    ∀ h ∈ o.target, (∀ c ∈ nodes, c.2.handle ≠ h) → g' = g ∧ value = 0

theorem remove_modify {h : Int} {f : Mlog → Mlog} (hkeep : ∀ x, (f x).handle = x.handle) :
    remove h (modify h f nodes) = remove h nodes := by
  induction nodes with
  | nil => rfl
  | cons c l ih =>
    unfold remove modify at ih ⊢
    by_cases hc : mloggerCheck h c.2 = true
    · have hfc : mloggerCheck h (f c.2) = true := by simpa [mloggerCheck, hkeep] using hc
      simp [hc, hfc, ih]
    · simp [hc, ih]

theorem places_modify {h : Int} {f : Mlog → Mlog} (hkeep : ∀ x, (f x).handle = x.handle) :
    (modify h f nodes).map (fun c => (c.1, c.2.handle)) = nodes.map fun c => (c.1, c.2.handle) := by
  rw [modify, List.map_map]
  refine List.map_congr_left fun c _ => ?_
  simp only [Function.comp_apply]
  split <;> simp [hkeep]

theorem remove_effect (o : Op) (live : Int → Bool) :
    ∀ h ∈ o.about (answer g.nextHandle live o),
      remove h (effect g.nextHandle nodes o) = remove h nodes := by
  intro h hh
  have hassigns : o.assigns = true → h ∈ o.target →
      remove h (effect g.nextHandle nodes o) = remove h nodes := by
    intro ho hk
    obtain ⟨k, f, hk', hkeep, heffect⟩ := effect_assigns ho
    obtain rfl : k = h := Option.some.inj (hk'.symm.trans hk)
    rw [heffect, remove_modify hkeep]
  cases o with
  | getMlogger malloc type severity logtime =>
    cases malloc with
    | none => rfl
    | some a =>
      obtain rfl : g.nextHandle = h := Option.some.inj hh
      rw [effect, remove, List.filter_append,
        List.filter_cons_of_neg (by simp [mloggerCheck, newLogger_handle])]
      simp [remove]
  | shutdownMlogger k =>
    obtain rfl : k = h := Option.some.inj hh
    exact List.filter_filter.trans (by simp [remove])
  | shutdownAllMloggers => cases hh
  | setloggertype | setloggersev | setloggertime | registerMlogCallback => exact hassigns rfl hh

theorem places_effect (o : Op) (ho : o.assigns = true) (next : Int) :
    (effect next nodes o).map (fun c => (c.1, c.2.handle)) =
      nodes.map fun c => (c.1, c.2.handle) := by
  obtain ⟨h, f, -, hkeep, heffect⟩ := effect_assigns ho
  rw [heffect, places_modify hkeep]

theorem answer_unknown {next : Int} {live : Int → Bool} {h : Int} (hh : h ∈ o.target)
    (hl : live h = false) :
    answer next live o = 0 := by
  cases o <;> cases hh <;> simp [answer, hl]

/-! ## Runs -/

def creations (ops : List Op) : Nat := ops.countP fun o => o matches .getMlogger ..

/-- The list has handles and rounds enough for the calls to come. -/
structure Room (fuel : Nat) (ops : List Op) (g : Globals) (nodes : Loggers) : Prop where
  registered : Registered g nodes
  rounds : nodes.length + ops.length < fuel
  handles : g.nextHandle + creations ops ≤ intMax

theorem nextAfter_creations (next : Int) (o : Op) (ops : List Op) :
    nextAfter next o + creations ops ≤ next + creations (o :: ops) := by
  have hcount : creations (o :: ops) = creations ops + if o matches .getMlogger .. then 1 else 0 :=
    List.countP_cons
  cases o with
  | getMlogger malloc type severity logtime =>
    have hnext : nextAfter next (.getMlogger malloc type severity logtime) ≤ next + 1 := by
      cases malloc with
      | none => exact Int.le_add_one (Int.le_refl next)
      | some a => exact Int.le_refl _
    rw [if_pos rfl] at hcount
    omega
  | _ =>
    simp only [nextAfter]
    omega

/-- A call uses up what it is given room for, and leaves the loggers of other handles alone. -/
theorem Room.step {os : List Op} (hroom : Room fuel (o :: os) g nodes) (hfresh : Fresh g o) :
    ∃ g' r, step fuel g o = .ok (g', r) ∧ Room fuel os g' (effect g.nextHandle nodes o) ∧
      g'.nextHandle = nextAfter g.nextHandle o ∧ r.value = answer g.nextHandle (live nodes) o ∧
      LeavesOthers g o g' r.value := by
  obtain ⟨hr, hrounds, hhandles⟩ := hroom
  rw [List.length_cons] at hrounds
  have hnext := nextAfter_creations g.nextHandle o os
  have hmax : nextAfter g.nextHandle o ≤ intMax := by omega
  have hf : nodes.length + 1 < fuel := by omega
  obtain ⟨g', r, hs, hr', hnext', hvalue, _, hsame⟩ := step_spec hr hf hfresh hmax
  have hlen := length_effect g.nextHandle nodes o
  refine ⟨g', r, hs, ⟨hr', by omega, by rw [hnext']; omega⟩, hnext', hvalue,
    nodes, _, hr.list, hr'.list, ?_, fun ho => places_effect o ho _, fun h hh hno => ?_⟩
  · rw [hvalue]
    exact remove_effect o (live nodes)
  · have hl : live nodes h = false := by
      rw [live, lookup_eq_none.mpr fun c hc => by simp [mloggerCheck, hno c hc]]
      rfl
    exact ⟨hsame h hh hl, hvalue.trans (answer_unknown hh hl)⟩

/-- `find_mlogger` looks a handle up in the map: it returns a node with the configuration of the
handle, or `NULL` if it has none. -/
def Finds (fuel : Nat) (g : Globals) (h : Int) : Option Config → Prop
  | none => findMlogger fuel h g = .ok none
  | some c => ∃ a node, findMlogger fuel h g = .ok (some a) ∧ g.heap a = some node ∧
    node.payload.handle = h ∧ node.payload.config = c

theorem StandsFor.finds (hr : Registered g nodes) (hf : nodes.length < fuel)
    (hs : StandsFor nodes g.nextHandle m)
    (h : Int) : Finds fuel g h (m.value h) := by
  have hfind := findMlogger_spec hr hf h
  rw [hs.value]
  cases hc : lookup nodes h with
  | none => rwa [hc] at hfind
  | some c =>
    rw [hc] at hfind
    obtain ⟨hmem, hhandle⟩ := lookup_eq_some hc
    obtain ⟨n, ha⟩ := hr.list.cell (a := c.1) (x := c.2) hmem
    exact ⟨c.1, _, hfind, ha, hhandle, rfl⟩

theorem Room.start {ops : List Op} (hfuel : ops.length < fuel) (hfew : creations ops < 2 ^ 31) :
    Room fuel ops .start [] :=
  ⟨.start, by simpa using hfuel, by simp only [Globals.start, intMax]; omega⟩

/-- The run lemma: calls that create fewer than 2^31 loggers end, answer as on the map, and leave
a list that stands for it. -/
theorem run_map {ops : List Op} (hfuel : ops.length < fuel) (hfew : creations ops < 2 ^ 31)
    (hmalloc : ∀ p ∈ visits (step fuel) .start ops, Fresh p.1 p.2) :
    ∃ g rs nodes, runOps (step fuel) .start ops = .ok (g, rs) ∧ Room fuel [] g nodes ∧
      StandsFor nodes g.nextHandle (mapOf ops) ∧
      rs.map Ret.value = (runPure mapStep .empty ops).2 := by
  obtain ⟨g, rs, hrun, ⟨nodes, hroom, hs⟩, hanswers⟩ := runOps_simulates mapStep
    (fun os g m => ∃ nodes, Room fuel os g nodes ∧ StandsFor nodes g.nextHandle m)
    (fun value r => r.value = value) Fresh
    (by
      intro o os g m hstands hfresh
      obtain ⟨nodes, hroom, hs⟩ := hstands
      obtain ⟨g', r, hstep, hroom', hnext, hvalue, _⟩ := hroom.step hfresh
      refine ⟨g', r, hstep, ⟨_, hroom', hnext ▸ hs.effect hroom.registered o⟩, ?_⟩
      rw [hvalue, mapStep, hs.live, hs.next])
    ops .start .empty ⟨[], .start hfuel hfew, rfl, fun _ => rfl⟩ hmalloc
  refine ⟨g, rs, nodes, hrun, hroom, hs, ?_⟩
  rw [← List.forall₂_eq_eq_eq, List.forall₂_map_left_iff]
  exact hanswers.flip

/-- **The registry refines the map.** From program start, whatever the calls, as long as they
create fewer than 2^31 loggers: every call ends and answers as on the map; then a handle is
found exactly if it has been issued and not shut down since, with what has been set for it; and
on the way each call leaves the loggers of other handles alone. -/
theorem registry_refines_map (fuel : Nat) (ops : List Op) (hfuel : ops.length < fuel)
    (hfew : creations ops < 2 ^ 31) (hmalloc : ∀ p ∈ visits (step fuel) .start ops, Fresh p.1 p.2) :
    (∃ g rs, runOps (step fuel) .start ops = .ok (g, rs) ∧
      rs.map Ret.value = (runPure mapStep .empty ops).2 ∧
      ∀ h, Finds fuel g h ((mapOf ops).value h) ∧
        (findMlogger fuel h g = .ok none ↔
          ¬ Issued h (ops.zip (rs.map Ret.value)) ∨ ShutDown h (ops.zip (rs.map Ret.value)))) ∧
    ∀ p ∈ visits (step fuel) .start ops, ∃ g' r, step fuel p.1 p.2 = .ok (g', r) ∧
      LeavesOthers p.1 p.2 g' r.value := by
  constructor
  · obtain ⟨g, rs, nodes, hrun, hroom, hs, hvalues⟩ := run_map hfuel hfew hmalloc
    refine ⟨g, rs, hrun, hvalues, fun h => ?_⟩
    have hfinds : Finds fuel g h ((mapOf ops).value h) :=
      hs.finds hroom.registered (by simpa using hroom.rounds) h
    refine ⟨hfinds, ?_⟩
    rw [hvalues]
    refine Iff.trans ?_ (mapOf_none_iff ops h)
    cases hv : (mapOf ops).value h with
    | none => rw [hv] at hfinds; exact iff_of_true hfinds rfl
    | some c =>
      rw [hv] at hfinds
      obtain ⟨a, node, hfound, _⟩ := hfinds
      rw [hfound]
      simp
  · refine forall_visits (fun os g => ∃ nodes, Room fuel os g nodes) Fresh
      (fun g o => ∃ g' r, step fuel g o = .ok (g', r) ∧ LeavesOthers g o g' r.value) ?_
      ops .start ⟨[], .start hfuel hfew⟩ hmalloc
    intro o os g hnodes hfresh
    obtain ⟨nodes, hroom⟩ := hnodes
    obtain ⟨g', r, hstep, hroom', _, _, hothers⟩ := hroom.step hfresh
    refine ⟨⟨g', r, hstep, hothers⟩, fun g'' r' hs => ?_⟩
    rw [hstep] at hs
    cases hs
    exact ⟨_, hroom'⟩

/-- Of two loggers the first is shut down, after which it is not found, and the second has its
severity and its callback set. -/
theorem registry_refines_map_two :
    ∃ g rs, runOps (step 7) .start [.getMlogger (some 4) .stdout .info .none,
        .getMlogger (some 2) .stderr .debug .utc, .setloggersev 1 .error, .shutdownMlogger 0,
        .registerMlogCallback 1 (some 9) none, .setloggertime 0 .utc] = .ok (g, rs) ∧
      findMlogger 7 0 g = .ok none ∧ Finds 7 g 1 (some ⟨.error, .utc, some 9, none⟩) := by
  obtain ⟨⟨g, rs, hrun, _, hall⟩, _⟩ :=
    registry_refines_map 7 [.getMlogger (some 4) .stdout .info .none,
    .getMlogger (some 2) .stderr .debug .utc, .setloggersev 1 .error, .shutdownMlogger 0,
    .registerMlogCallback 1 (some 9) none, .setloggertime 0 .utc] (by decide) (by decide)
      (by decide +kernel)
  exact ⟨g, rs, hrun, (hall 0).1, (hall 1).1⟩

end Mikelibc.Log
