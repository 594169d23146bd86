import Mikelibc.Log.Steps

/-! # The default handle

`g_handle` goes to 0 with the first logger and to -1 with the last one, and is
not looked at in between. So it stays the handle of a registered logger exactly
as long as logger 0 is not shut down before the others, and no logger is created
after logger 0 when there are none (`default_live_iff`). -/
namespace Mikelibc.Log
open CSem Linked

variable {g : Globals} {nodes : Loggers} {h : Int}

/-- `g_handle` is -1 exactly when no logger is on the list, and otherwise the handle of one
that is. -/
def DefaultLive (g : Globals) : Prop :=
  ∃ nodes, IsList g.heap g.mloggers nodes ∧ (g.gHandle = -1 ↔ nodes = []) ∧
    (g.gHandle ≠ -1 → g.gHandle ∈ handles nodes)

/-- A logger is created while the default is set, or it is the first of all; and the default
is not shut down while there are others. -/
def KeepsDefault (g : Globals) : Op → Prop
  | .getMlogger malloc _ _ _ => malloc = none ∨ 0 ≤ g.gHandle ∨ g.nextHandle = 0
  | .shutdownMlogger h => h ≠ g.gHandle ∨ g.nloggers ≤ 1
  | .shutdownAllMloggers | .setloggertype .. | .setloggersev .. | .setloggertime .. |
    .registerMlogCallback .. => True

def Op.lifecycle : Op → Bool
  | .getMlogger .. | .shutdownMlogger _ | .shutdownAllMloggers => true
  | .setloggertype .. | .setloggersev .. | .setloggertime .. | .registerMlogCallback .. => false

instance KeepsDefault.decide (g : Globals) (o : Op) : Decidable (KeepsDefault g o) :=
  match o with
  | .getMlogger .. => inferInstanceAs (Decidable (_ ∨ _))
  | .shutdownMlogger _ => inferInstanceAs (Decidable (_ ∨ _))
  | .shutdownAllMloggers | .setloggertype .. | .setloggersev .. | .setloggertime .. |
    .registerMlogCallback .. => isTrue trivial

theorem mem_handles : h ∈ handles nodes ↔ live nodes h = true := by
  simp [handles, live, lookup_isSome, mloggerCheck]

/-- The default can only be logger 0. -/
theorem Registered.defaultLive_iff (hr : Registered g nodes) :
    DefaultLive g ↔ nodes = [] ∨ live nodes 0 = true := by
  have hdefault := hr.default
  constructor
  · intro hlive
    obtain ⟨nodes', hlist, -, hmem⟩ := hlive
    obtain rfl := hr.list.unique hlist
    by_cases hnil : nodes = []
    · exact .inl hnil
    · rw [if_neg hnil] at hdefault
      rw [hdefault, mem_handles] at hmem
      exact .inr (hmem (by decide))
  · intro h
    refine ⟨nodes, hr.list, ?_, fun hne => ?_⟩
    · by_cases hnil : nodes = [] <;> simp [hdefault, hnil]
    · rcases h with rfl | hl
      · exact absurd hdefault hne
      · split at hdefault
        · exact absurd hdefault hne
        · rw [hdefault, mem_handles, hl]

theorem Registered.length_remove (hr : Registered g nodes) (hl : live nodes h = true) :
    (remove h nodes).length + 1 = nodes.length := by
  rcases hr.cases h with hnone | ⟨pre, a, x, post, rfl, hx, hpre, hpost⟩
  · simp [live, lookup_none hnone] at hl
  · simp [remove_middle hx hpre hpost]
    omega

theorem live_append {a : Nat} {x : Mlog} (hnew : lookup nodes x.handle = none) :
    live (nodes ++ [(a, x)]) h = (live nodes h || decide (h = x.handle)) := by
  unfold live
  rw [lookup_append hnew]
  by_cases hx : h = x.handle <;> simp [hx]

theorem live_modify {k : Int} {f : Mlog → Mlog} (hkeep : ∀ x, (f x).handle = x.handle) :
    live (modify k f nodes) h = live nodes h := by
  unfold live
  rw [lookup_modify hkeep]
  split <;> simp

theorem live_remove {k : Int} : live (remove k nodes) h = (live nodes h && decide (h ≠ k)) := by
  unfold live
  rw [lookup_remove]
  by_cases hk : h = k <;> simp [hk]

/-- A call keeps the default live exactly when it is one of `KeepsDefault`. -/
theorem keepsDefault_iff (hr : Registered g nodes) (hgood : nodes = [] ∨ live nodes 0 = true)
    (o : Op) :
    (effect g.nextHandle nodes o = [] ∨ live (effect g.nextHandle nodes o) 0 = true) ↔
      KeepsDefault g o := by
  have hdefault := hr.default
  have hassigns : o.assigns = true →
      (effect g.nextHandle nodes o = [] ∨ live (effect g.nextHandle nodes o) 0 = true) := fun ho => by
    obtain ⟨k, f, -, hkeep, heffect⟩ := effect_assigns ho
    rwa [heffect, live_modify hkeep, modify, List.map_eq_nil_iff]
  cases o with
  | getMlogger malloc type severity logtime =>
    cases malloc with
    | none => exact iff_of_true hgood (.inl rfl)
    | some a =>
      have hnew := hr.next_dead
      rw [← newLogger_handle type severity logtime g.nextHandle] at hnew
      simp only [effect, live_append hnew, newLogger_handle, KeepsDefault]
      rcases hgood with rfl | hl
      · simp [hdefault, eq_comm]
      · have hne : nodes ≠ [] := fun hnil => by simp [hnil] at hl
        simp [hdefault, hne, hl]
  | shutdownMlogger k =>
    simp only [effect, live_remove, KeepsDefault, UInt32.le_iff_toNat_le, hr.count]
    rcases hgood with rfl | hl
    · simp [remove]
    · have hne : nodes ≠ [] := fun hnil => by simp [hnil] at hl
      simp only [hdefault, if_neg hne, hl, Bool.true_and, decide_eq_true_eq]
      by_cases hk : k = 0
      · have hlen := hr.length_remove hl
        subst hk
        simp only [ne_eq, not_true_eq_false, or_false, false_or, ← List.length_eq_zero_iff]
        change _ ↔ nodes.length ≤ 1
        omega
      · simp [hk, Ne.symm hk]
  | shutdownAllMloggers => exact iff_of_true (.inl rfl) trivial
  | setloggertype | setloggersev | setloggertime | registerMlogCallback =>
    exact iff_of_true (hassigns rfl) trivial

/-- **When the default handle is live.** Whatever the calls, every state they pass through has a
live default exactly when each call that ends is one of `KeepsDefault`. -/
theorem default_live_iff (fuel : Nat) (ops : List Op) (hfuel : ops.length < fuel)
    (hfresh : ∀ p ∈ completed (step fuel) .start ops, Fresh p.1 p.2) :
    (∀ g ∈ reached (step fuel) .start ops, DefaultLive g) ↔
      ∀ p ∈ completed (step fuel) .start ops, KeepsDefault p.1 p.2 := by
  exact reached_iff (fun nodes => nodes = [] ∨ live nodes 0 = true) (.inl rfl)
    (fun _ _ hr _ => hr.defaultLive_iff) (fun _ _ o hr _ hgood => keepsDefault_iff hr hgood o)
    ops hfuel hfresh

/-- Two loggers, of which the second is shut down. -/
theorem default_live_second_shut :
    ∃ states, reached (step 5) .start [.getMlogger (some 0) .stdout .info .none,
        .getMlogger (some 1) .stderr .info .none, .shutdownMlogger 1, .shutdownMlogger 0] = states ∧
      states.length = 5 ∧ ∀ g ∈ states, DefaultLive g :=
  ⟨_, rfl, by decide +kernel, (default_live_iff 5 _ (by decide) (by decide +kernel)).mpr
    (by decide +kernel)⟩

/-- Two loggers, of which the first is shut down: the default is still its handle. -/
theorem default_dangles :
    ¬ ∀ ops : List Op, (∀ o ∈ ops, o.lifecycle = true) →
      (∀ p ∈ completed (step (ops.length + 1)) .start ops, Fresh p.1 p.2) →
      ∀ g ∈ reached (step (ops.length + 1)) .start ops, DefaultLive g := by
  intro h
  obtain ⟨nodes, hlist, -, hmem⟩ := h [.getMlogger (some 0) .stdout .info .none,
    .getMlogger (some 1) .stderr .info .none, .shutdownMlogger 0] (by decide) (by decide +kernel) _
    (List.mem_of_getElem? (i := 3) rfl)
  have hleft : nodes = [(1, newLogger .stderr .info .none 1)] :=
    hlist.unique (.cons rfl (.nil none))
  subst hleft
  exact absurd (hmem (by decide +kernel)) (by decide +kernel)

end Mikelibc.Log
