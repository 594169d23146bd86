import Mathlib.Logic.Function.Basic

/-! # Maps with handles given out in turn

A finite map whose keys are handles: a new value gets the next handle, and a
handle is never given out twice. That every handle in use is one that has been
given out is part of the type. -/
namespace CSem

variable {V : Type}

/-- The values by handle, and the handle that comes next. -/
structure Handles (V : Type) where
  next : Int
  value : Int → Option V
  nonneg : 0 ≤ next
  given : ∀ h, value h ≠ none → 0 ≤ h ∧ h < next

namespace Handles

def empty : Handles V := ⟨0, fun _ => none, Int.le_refl 0, fun _ h => absurd rfl h⟩

def issue (m : Handles V) (v : V) : Handles V where
  next := m.next + 1
  value := Function.update m.value m.next (some v)
  nonneg := Int.le_add_one m.nonneg
  given h hv := by
    by_cases hh : h = m.next
    · exact ⟨hh ▸ m.nonneg, hh ▸ Int.lt_succ _⟩
    · rw [Function.update_of_ne hh] at hv
      exact ⟨(m.given h hv).1, Int.lt_add_one_of_le (Int.le_of_lt (m.given h hv).2)⟩

/-- Change the value of a handle, if it has one. -/
def adjust (m : Handles V) (h : Int) (f : V → V) : Handles V where
  next := m.next
  value k := if k = h then (m.value k).map f else m.value k
  nonneg := m.nonneg
  given k hk := m.given k fun hnone => by simp [hnone] at hk

def drop (m : Handles V) (h : Int) : Handles V where
  next := m.next
  value k := if k = h then none else m.value k
  nonneg := m.nonneg
  given k hk := m.given k fun hnone => by simp [hnone] at hk

def clear (m : Handles V) : Handles V where
  next := m.next
  value _ := none
  nonneg := m.nonneg
  given _ hk := absurd rfl hk

variable (m : Handles V) (h k : Int) (v : V) (f : V → V)

@[simp] theorem next_empty : (empty : Handles V).next = 0 := rfl
@[simp] theorem next_issue : (m.issue v).next = m.next + 1 := rfl
@[simp] theorem next_adjust : (m.adjust h f).next = m.next := rfl
@[simp] theorem next_drop : (m.drop h).next = m.next := rfl
@[simp] theorem next_clear : m.clear.next = m.next := rfl

@[simp] theorem value_empty : (empty : Handles V).value k = none := rfl
@[simp] theorem value_clear : m.clear.value k = none := rfl

theorem value_issue : (m.issue v).value k = if k = m.next then some v else m.value k := by
  simp [issue, Function.update_apply]

theorem value_adjust : (m.adjust h f).value k = if k = h then (m.value k).map f else m.value k := rfl

theorem value_drop : (m.drop h).value k = if k = h then none else m.value k := rfl

@[simp] theorem value_adjust_eq_none : (m.adjust h f).value k = none ↔ m.value k = none := by
  rw [value_adjust]
  split <;> simp

end Handles

end CSem
