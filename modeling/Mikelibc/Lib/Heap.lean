import Mathlib.Data.Finset.Card
import Mathlib.Data.Finset.Range
import Mikelibc.Lib.Control
import Mikelibc.Lib.Handles

/-! # What is in use

A heap is a map of handles: what has been taken and not been given back. To give back what is not
in use is undefined behaviour. A piece of code is described by what it leaves: all that was in use
stays as it is, and of what the code has taken one thing may still be there (`Leaves`). -/
namespace CSem
namespace Handles

variable {V : Type} {m m' : Handles V} {h : Int} {v : V}

def release (m : Handles V) (h : Int) : Outcome (Handles V) := do
  Outcome.require ((m.value h).isSome = true)
  return m.drop h

def live (m : Handles V) : Finset Int :=
  ((Finset.range m.next.toNat).image Int.ofNat).filter fun h => (m.value h).isSome

theorem mem_live : h ∈ m.live ↔ m.value h ≠ none := by
  rw [live, Finset.mem_filter, Option.isSome_iff_ne_none, and_iff_right_iff_imp]
  intro hused
  obtain ⟨hpos, hlt⟩ := m.given h hused
  exact Finset.mem_image.mpr ⟨h.toNat, Finset.mem_range.mpr (by omega), Int.toNat_of_nonneg hpos⟩

@[simp] theorem live_empty : (empty : Handles V).live = ∅ := rfl

theorem value_past {k : Int} (hk : m.next ≤ k) : m.value k = none := by
  by_contra hused
  exact absurd (m.given k hused).2 (Int.not_lt.mpr hk)

theorem lt_next (hv : m.value h = some v) : h < m.next :=
  (m.given h (by rw [hv]; exact Option.some_ne_none v)).2

theorem release_of (hv : m.value h ≠ none) : m.release h = .ok (m.drop h) := by
  rw [release, Outcome.require_of (Option.isSome_iff_ne_none.mpr hv)]
  rfl

theorem release_unused (hv : m.value h = none) : m.release h = .fault := by
  rw [release, Outcome.require_of_not (by simp [hv])]
  rfl

theorem release_eq_ok : m.release h = .ok m' ↔ m.value h ≠ none ∧ m' = m.drop h := by
  by_cases hv : m.value h = none
  · simp [release_unused hv, hv]
  · simp [release_of hv, hv, eq_comm]

theorem live_drop (m : Handles V) (h : Int) : (m.drop h).live = m.live.erase h := by
  ext k
  rw [Finset.mem_erase, mem_live, mem_live, value_drop]
  by_cases hk : k = h <;> simp [hk]

/-- What a piece of code does to the heap. -/
structure Leaves (m m' : Handles V) (left : Option (Int × V)) : Prop where
  next : m.next ≤ m'.next
  old : ∀ h < m.next, m'.value h = m.value h
  fresh : ∀ p, left = some p → m.next ≤ p.1
  new : ∀ h ≥ m.next, ∀ v, m'.value h = some v ↔ left = some (h, v)

variable {left : Option (Int × V)}

theorem Leaves.nothing (m : Handles V) : Leaves m m none :=
  ⟨Int.le_refl _, fun _ _ => rfl, nofun, fun _ hh _ =>
    ⟨fun hv => absurd (lt_next hv) (Int.not_lt.mpr hh), nofun⟩⟩

theorem Leaves.value (hl : Leaves m m' (some (h, v))) : m'.value h = some v :=
  (hl.new h (hl.fresh _ rfl) v).mpr rfl

/-- What is in use was so before, or is what has been left. -/
theorem Leaves.origin (hl : Leaves m m' left) {k : Int} (hv : m'.value k = some v) :
    m.value k = some v ∨ left = some (k, v) := by
  by_cases hk : k < m.next
  · exact .inl ((hl.old k hk).symm.trans hv)
  · exact .inr ((hl.new k (Int.not_lt.mp hk) v).mp hv)

theorem Leaves.value_eq {x : Option V} (hl : Leaves m m' (x.map (h, ·))) (hh : m.next ≤ h) :
    m'.value h = x := by
  cases x with
  | none =>
    by_contra hused
    obtain ⟨w, hw⟩ := Option.ne_none_iff_exists'.mp hused
    cases (hl.new h hh w).mp hw
  | some v => exact hl.value

/-! ## How code leaves something -/

variable {m₁ : Handles V}

theorem Leaves.taken (m : Handles V) (v : V) : Leaves m (m.issue v) (some (m.next, v)) where
  next := Int.le_of_lt (Int.lt_succ m.next)
  old h hh := by rw [value_issue, if_neg (Int.ne_of_lt hh)]
  fresh := by rintro p ⟨⟩; exact Int.le_refl _
  new h hh w := by
    rw [value_issue]
    by_cases heq : h = m.next
    · simp [heq]
    · simp [heq, value_past hh, Ne.symm heq]

theorem Leaves.adjust (hl : Leaves m m' (some (h, v))) (f : V → V) :
    Leaves m (m'.adjust h f) (some (h, f v)) where
  next := hl.next
  old k hk := by
    have hne : k ≠ h := fun he => absurd (he ▸ hk) (Int.not_lt.mpr (hl.fresh _ rfl))
    rw [value_adjust, if_neg hne, hl.old k hk]
  fresh := by rintro p ⟨⟩; exact hl.fresh (h, v) rfl
  new k hk w := by
    rw [value_adjust]
    by_cases heq : k = h
    · subst heq
      simp [hl.value]
    · rw [if_neg heq, hl.new k hk]
      simp [Ne.symm heq]

theorem Leaves.give (hl : Leaves m m' (some (h, v))) :
    m'.release h = .ok (m'.drop h) ∧ Leaves m (m'.drop h) none := by
  refine ⟨release_of (by rw [hl.value]; exact Option.some_ne_none v), hl.next, fun k hk => ?_,
    nofun, fun k hk w => ?_⟩
  · have hne : k ≠ h := fun he => absurd (he ▸ hk) (Int.not_lt.mpr (hl.fresh _ rfl))
    rw [value_drop, if_neg hne, hl.old k hk]
  · rw [value_drop]
    by_cases heq : k = h
    · simp [heq]
    · rw [if_neg heq, hl.new k hk]
      simp [Ne.symm heq]

/-- Something is taken, and given back when other code has run in between. -/
theorem Leaves.scratch (hl : Leaves (m.issue v) m' left) :
    m'.release m.next = .ok (m'.drop m.next) ∧ Leaves m (m'.drop m.next) left := by
  have hnext : m.next < (m.issue v).next := Int.lt_succ m.next
  have hkept : m'.value m.next = some v := by
    rw [hl.old _ hnext, value_issue, if_pos rfl]
  refine ⟨release_of (by rw [hkept]; exact Option.some_ne_none v),
    Int.le_trans (Int.le_of_lt hnext) hl.next, fun k hk => ?_,
    fun p hp => Int.le_trans (Int.le_of_lt hnext) (hl.fresh p hp), fun k hk w => ?_⟩
  · have hne : k ≠ m.next := Int.ne_of_lt hk
    rw [value_drop, if_neg hne, hl.old k (Int.lt_trans hk hnext), value_issue, if_neg hne]
  · rw [value_drop]
    by_cases heq : k = m.next
    · subst heq
      rw [if_pos rfl]
      refine ⟨nofun, fun hp => absurd (hl.fresh _ hp) (Int.not_le.mpr hnext)⟩
    · rw [if_neg heq, hl.new k (Int.lt_iff_add_one_le.mp (lt_of_le_of_ne hk (Ne.symm heq)))]

theorem Leaves.trans (hl : Leaves m m₁ left) (hl' : Leaves m₁ m' none) : Leaves m m' left where
  next := Int.le_trans hl.next hl'.next
  old k hk := by rw [hl'.old k (lt_of_lt_of_le hk hl.next), hl.old k hk]
  fresh := hl.fresh
  new k hk w := by
    by_cases hold : k < m₁.next
    · rw [hl'.old k hold, hl.new k hk]
    · rw [hl'.new k (Int.not_lt.mp hold)]
      refine ⟨nofun, fun hp => ?_⟩
      have hvalue := (hl.new k hk w).mpr hp
      exact absurd (lt_next hvalue) hold

/-! ## How much is in use -/

theorem Leaves.live_none (hl : Leaves m m' none) : m'.live = m.live := by
  ext k
  rw [mem_live, mem_live]
  by_cases hk : k < m.next
  · rw [hl.old k hk]
  · have hafter : m'.value k = none := Leaves.value_eq (x := none) hl (Int.not_lt.mp hk)
    rw [value_past (Int.not_lt.mp hk), hafter]

theorem Leaves.live_some (hl : Leaves m m' (some (h, v))) :
    m'.live = insert h m.live ∧ h ∉ m.live := by
  have hfresh := hl.fresh _ rfl
  refine ⟨?_, fun hmem => mem_live.mp hmem (value_past hfresh)⟩
  ext k
  rw [Finset.mem_insert, mem_live, mem_live]
  by_cases hk : k < m.next
  · have hne : k ≠ h := fun he => absurd (he ▸ hk) (Int.not_lt.mpr hfresh)
    rw [hl.old k hk, or_iff_right hne]
  · simp only [value_past (Int.not_lt.mp hk), ne_eq, not_true_eq_false, or_false]
    constructor
    · intro hused
      obtain ⟨w, hw⟩ := Option.ne_none_iff_exists'.mp hused
      cases (hl.new k (Int.not_lt.mp hk) w).mp hw
      rfl
    · rintro rfl hnone
      rw [hl.value] at hnone
      cases hnone

theorem Leaves.card (hl : Leaves m m' left) : m'.live.card = m.live.card + left.isSome.toNat := by
  cases left with
  | none => rw [hl.live_none]; rfl
  | some p =>
    obtain ⟨hlive, hnot⟩ := hl.live_some
    rw [hlive, Finset.card_insert_of_notMem hnot]
    rfl

/-! ## Several things at a time -/

/-- Of what the code has taken these handles are still in use, and all else is as it was. -/
structure Owns (m m' : Handles V) (hs : List Int) : Prop where
  next : m.next ≤ m'.next
  old : ∀ h < m.next, m'.value h = m.value h
  new : ∀ h ≥ m.next, m'.value h ≠ none ↔ h ∈ hs
  fresh : ∀ h ∈ hs, m.next ≤ h
  nodup : hs.Nodup

variable {hs : List Int}

theorem Owns.nothing (m : Handles V) : Owns m m [] :=
  ⟨Int.le_refl _, fun _ _ => rfl, fun h hh => by simp [value_past hh], nofun, .nil⟩

theorem Owns.used (ho : Owns m m' hs) (hh : h ∈ hs) : m'.value h ≠ none :=
  (ho.new h (ho.fresh h hh)).mpr hh

theorem Owns.lt (ho : Owns m m' hs) (hh : h ∈ hs) : h < m'.next := (m'.given h (ho.used hh)).2

theorem Owns.perm {hs' : List Int} (ho : Owns m m' hs) (hp : hs.Perm hs') : Owns m m' hs' :=
  ⟨ho.next, ho.old, fun h hh => (ho.new h hh).trans hp.mem_iff,
    fun h hh => ho.fresh h (hp.mem_iff.mpr hh), hp.nodup_iff.mp ho.nodup⟩

theorem Owns.take (ho : Owns m m' hs) (v : V) : Owns m (m'.issue v) (m'.next :: hs) where
  next := Int.le_trans ho.next (Int.le_of_lt (Int.lt_succ _))
  old h hh := by
    rw [value_issue, if_neg (Int.ne_of_lt (lt_of_lt_of_le hh ho.next)), ho.old h hh]
  new h hh := by
    rw [value_issue, List.mem_cons, ← ho.new h hh]
    by_cases heq : h = m'.next <;> simp [heq]
  fresh := List.forall_mem_cons.mpr ⟨ho.next, ho.fresh⟩
  nodup := List.nodup_cons.mpr ⟨fun hin => Int.lt_irrefl _ (ho.lt hin), ho.nodup⟩

theorem Owns.adjust (ho : Owns m m' hs) (hh : h ∈ hs) (f : V → V) : Owns m (m'.adjust h f) hs where
  next := ho.next
  old k hk := by
    have hne : k ≠ h := fun he => absurd (he ▸ hk) (Int.not_lt.mpr (ho.fresh h hh))
    rw [value_adjust, if_neg hne, ho.old k hk]
  new k hk := by rw [← ho.new k hk, ne_eq, ne_eq, value_adjust_eq_none]
  fresh := ho.fresh
  nodup := ho.nodup

theorem Owns.give (ho : Owns m m' (h :: hs)) :
    m'.release h = .ok (m'.drop h) ∧ Owns m (m'.drop h) hs := by
  have hfresh := ho.fresh h List.mem_cons_self
  obtain ⟨hnot, hnodup⟩ := List.nodup_cons.mp ho.nodup
  refine ⟨release_of (ho.used List.mem_cons_self), ho.next, fun k hk => ?_, fun k hk => ?_,
    fun k hk => ho.fresh k (List.mem_cons_of_mem _ hk), hnodup⟩
  · have hne : k ≠ h := fun he => absurd (he ▸ hk) (Int.not_lt.mpr hfresh)
    rw [value_drop, if_neg hne, ho.old k hk]
  · rw [value_drop]
    by_cases heq : k = h
    · simp [heq, hnot]
    · rw [if_neg heq, ho.new k hk, List.mem_cons, or_iff_right heq]

theorem Owns.leaves (ho : Owns m m' []) : Leaves m m' none :=
  ⟨ho.next, ho.old, nofun, fun h hh v => by
    have hnone : m'.value h = none := not_not.mp fun hne => List.not_mem_nil ((ho.new h hh).mp hne)
    simp [hnone]⟩

theorem Owns.card : ∀ {hs : List Int} {m' : Handles V}, Owns m m' hs →
    m'.live.card = m.live.card + hs.length := by
  intro hs
  induction hs with
  | nil => intro m' ho; rw [ho.leaves.live_none]; rfl
  | cons h hs ih =>
    intro m' ho
    have hrest := ih ho.give.2
    have hused := Finset.card_erase_add_one (mem_live.mpr (ho.used List.mem_cons_self))
    rw [live_drop] at hrest
    rw [List.length_cons]
    omega

end Handles
end CSem
