import Mathlib.Data.Nat.Fib.Basic
import Mikelibc.Lib.Control

/-! # `fibonacci` and `sfibonacci` of `mutil.c`

The recursion against the generator with its three static variables, over any history of
calls. Both add modulo 2^64, so both are compared with the Fibonacci numbers reduced once.
Debug messages are left out. -/
namespace Mikelibc.Fib
open CSem

/-- `fibonacci`. For an `int` above 1 neither `n - 1` nor `n - 2` overflows. -/
def fibonacci (n : Int) : UInt64 :=
  if n < 1 then 0
  else if n = 1 then 1
  else fibonacci (n - 1) + fibonacci (n - 2)
termination_by n.toNat

structure Statics where
  first : UInt64
  second : UInt64
  count : UInt64

/-- As the program starts, and as a reset leaves them. -/
def initial : Statics := ⟨0, 1, 0⟩

def sfibonacci (s : Statics) (reset : Int) : Statics × UInt64 :=
  let s := if reset ≠ 0 then initial else s
  let s := { s with count := s.count + 1 }
  if s.count = 1 then (s, 0)
  else if s.count = 2 then (s, 1)
  else
    let out := s.first + s.second
    ({ s with first := s.second, second := out }, out)

/-- The number of a call since the last one with a reset, which is number 1, given that
of the call before it. -/
def callNumber (k : Nat) (reset : Int) : Nat := if reset ≠ 0 then 1 else k + 1

/-- The number of the last call of a history. -/
def sinceReset (resets : List Int) : Nat := resets.foldl callNumber 0

def fibWord (n : Nat) : UInt64 := UInt64.ofNat (Nat.fib n)

theorem fibWord_add_two (n : Nat) : fibWord (n + 2) = fibWord n + fibWord (n + 1) := by
  unfold fibWord
  rw [Nat.fib_add_two, UInt64.ofNat_add]

theorem fibonacci_eq (n : Int) : fibonacci n = fibWord n.toNat := by
  induction n using fibonacci.induct with
  | case1 n hlt =>
    rw [fibonacci, if_pos hlt, show n.toNat = 0 by omega]
    rfl
  | case2 h => rw [fibonacci]; rfl
  | case3 n hlt hne ih₁ ih₂ =>
    obtain ⟨m, rfl⟩ : ∃ m : Nat, n = m + 2 := ⟨(n - 2).toNat, by omega⟩
    rw [fibonacci, if_neg hlt, if_neg hne, ih₁, ih₂, show ((m : Int) + 2).toNat = m + 2 by omega,
      fibWord_add_two, UInt64.add_comm]
    congr 2 <;> omega

example : fibonacci 4 = 3 := by rw [fibonacci_eq]; rfl

/-! ## The generator -/

/-- The static variables after call number `k`. The first two calls leave `first` and `second`
as they are. -/
structure After (s : Statics) (k : Nat) : Prop where
  first : s.first = fibWord (k - 2)
  second : s.second = fibWord (max (k - 1) 1)
  count : s.count = UInt64.ofNat k

theorem after_initial : After initial 0 := ⟨rfl, rfl, rfl⟩

theorem count_succ_eq {s : Statics} {k m : Nat} (h : After s k) (hk : k + 1 < 2 ^ 64)
    (hm : m < 2 ^ 64) : s.count + 1 = UInt64.ofNat m ↔ k + 1 = m := by
  rw [h.count, show (1 : UInt64) = UInt64.ofNat 1 from rfl, ← UInt64.ofNat_add,
    ← UInt64.toNat_inj, UInt64.toNat_ofNat_of_lt' hk, UInt64.toNat_ofNat_of_lt' hm]

theorem sfibonacci_zero {s : Statics} {k : Nat} (h : After s k) (hk : k + 1 < 2 ^ 64) :
    After (sfibonacci s 0).1 (k + 1) ∧ (sfibonacci s 0).2 = fibWord k := by
  have hcount : s.count + 1 = UInt64.ofNat (k + 1) := by rw [h.count, UInt64.ofNat_add]; rfl
  have hone : s.count + 1 = 1 ↔ k + 1 = 1 := count_succ_eq h hk (by decide)
  have htwo : s.count + 1 = 2 ↔ k + 1 = 2 := count_succ_eq h hk (by decide)
  match k with
  | 0 =>
    have hs : sfibonacci s 0 = ({ s with count := s.count + 1 }, 0) := by
      simp only [sfibonacci, ne_eq, not_true_eq_false, if_false]
      exact if_pos (hone.mpr rfl)
    rw [hs]
    exact ⟨⟨h.first, h.second, hcount⟩, rfl⟩
  | 1 =>
    have hs : sfibonacci s 0 = ({ s with count := s.count + 1 }, 1) := by
      simp only [sfibonacci, ne_eq, not_true_eq_false, if_false]
      rw [if_neg (mt hone.mp (by omega))]
      exact if_pos (htwo.mpr rfl)
    rw [hs]
    exact ⟨⟨h.first, h.second, hcount⟩, rfl⟩
  | k + 2 =>
    have hs : sfibonacci s 0 = (⟨s.second, s.first + s.second, s.count + 1⟩,
        s.first + s.second) := by
      simp only [sfibonacci, ne_eq, not_true_eq_false, if_false]
      rw [if_neg (mt hone.mp (by omega))]
      exact if_neg (mt htwo.mp (by omega))
    have hout : s.first + s.second = fibWord (k + 2) := by
      rw [h.first, h.second, fibWord_add_two]
      congr 2
      omega
    rw [hs, hout]
    refine ⟨⟨?_, ?_, hcount⟩, rfl⟩
    · rw [h.second, show max (k + 2 - 1) 1 = k + 2 + 1 - 2 by omega]
    · rw [show max (k + 2 + 1 - 1) 1 = k + 2 by omega]

/-- A reset is a call at the start of the program. -/
theorem sfibonacci_reset {s : Statics} {reset : Int} (h : reset ≠ 0) :
    sfibonacci s reset = sfibonacci initial 0 := by
  simp [sfibonacci, h]

theorem sfibonacci_after {s : Statics} {k : Nat} (reset : Int) (h : k < 2 ^ 31 → After s k)
    (hk : callNumber k reset < 2 ^ 31) :
    After (sfibonacci s reset).1 (callNumber k reset) ∧
      (sfibonacci s reset).2 = fibWord (callNumber k reset - 1) := by
  unfold callNumber at hk ⊢
  by_cases hreset : reset = 0
  · subst hreset
    simp only [ne_eq, not_true_eq_false, if_false] at hk ⊢
    exact sfibonacci_zero (h (by omega)) (by omega)
  · rw [if_pos hreset, sfibonacci_reset hreset]
    exact sfibonacci_zero after_initial (by decide)

/-- The calls of a history that starts after call number `k`. Only the calls since the last reset
have to be fewer than 2^31. -/
theorem runPure_sfibonacci :
    ∀ (resets : List Int) (s : Statics) (k i : Nat), (k < 2 ^ 31 → After s k) →
      i < resets.length → (resets.take (i + 1)).foldl callNumber k < 2 ^ 31 →
      (runPure sfibonacci s resets).2[i]? =
        some (fibWord ((resets.take (i + 1)).foldl callNumber k - 1)) := by
  intro resets
  induction resets with
  | nil => intro _ _ _ _ hi; simp at hi
  | cons reset resets ih =>
    intro s k i h hi hk
    cases i with
    | zero => exact congrArg some (sfibonacci_after reset h hk).2
    | succ i =>
      exact ih _ (callNumber k reset) i (fun hlt => (sfibonacci_after reset h hlt).1)
        (Nat.lt_of_succ_lt_succ hi) hk

/-- **`sfibonacci` and `fibonacci`**: whatever the history, call number `k` since the last reset
returns `fibonacci(k - 1)`. -/
theorem sfibonacci_eq_fibonacci (resets : List Int) (i : Nat) (hi : i < resets.length)
    (hk : sinceReset (resets.take (i + 1)) < 2 ^ 31) :
    (runPure sfibonacci initial resets).2[i]? =
      some (fibonacci ((sinceReset (resets.take (i + 1)) : Int) - 1)) := by
  rw [fibonacci_eq, Int.pred_toNat]
  exact runPure_sfibonacci resets initial 0 i (fun _ => after_initial) hi hk

/-- The last call of the test, after two calls that the reset forgets. -/
theorem sfibonacci_eq_fibonacci_test :
    (runPure sfibonacci initial [0, 0, 1, 0, 0, 0, 0]).2[6]? = some (fibonacci 4) :=
  sfibonacci_eq_fibonacci [0, 0, 1, 0, 0, 0, 0] 6 (by decide) (by decide)

end Mikelibc.Fib
