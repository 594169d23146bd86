import Mathlib.Tactic.Common

/-! # Pairs of hexadecimal digits

A byte as two digits of either case, lists of bytes as lists of such pairs, and
percent-encoding, where a pair stands behind each `%`. What has been written can be read
back. -/
namespace CSem

def hexValue (c : UInt8) : Option UInt8 :=
  if 48 ≤ c ∧ c ≤ 57 then some (c - 48)
  else if 97 ≤ c ∧ c ≤ 102 then some (c - 87)
  else if 65 ≤ c ∧ c ≤ 70 then some (c - 55)
  else none

/-- `0` to `9` and `a` to `f`. -/
def lowerDigit (d : UInt8) : UInt8 := if d < 10 then 48 + d else 87 + d

/-- `0` to `9` and `A` to `F`. -/
def upperDigit (d : UInt8) : UInt8 := if d < 10 then 48 + d else 55 + d

/-- Digits that are read as what they were written for. -/
def IsHexDigits (digit : UInt8 → UInt8) : Prop := ∀ d < 16, hexValue (digit d) = some d

instance (digit : UInt8 → UInt8) : Decidable (IsHexDigits digit) :=
  decidable_of_iff (∀ d : Fin 16, hexValue (digit (UInt8.ofNat d)) = some (UInt8.ofNat d)) <| by
    constructor
    · intro h d hd
      have hlt : d.toNat < 16 := UInt8.lt_iff_toNat_lt.mp hd
      simpa using h ⟨d.toNat, hlt⟩
    · intro h d
      refine h _ (UInt8.lt_iff_toNat_lt.mpr ?_)
      rw [UInt8.toNat_ofNat_of_lt' (by have := d.isLt; simp only [UInt8.size]; omega)]
      exact d.isLt

theorem isHexDigits_lower : IsHexDigits lowerDigit := by decide

theorem isHexDigits_upper : IsHexDigits upperDigit := by decide

def hexPair (digit : UInt8 → UInt8) (b : UInt8) : List UInt8 := [digit (b / 16), digit (b % 16)]

def hexPairs (digit : UInt8 → UInt8) (bytes : List UInt8) : List UInt8 :=
  bytes.flatMap (hexPair digit)

def readPair (x y : UInt8) : Option UInt8 := do
  let high ← hexValue x
  let low ← hexValue y
  return 16 * high + low

def readPairs : List UInt8 → Option (List UInt8)
  | [] => some []
  | [_] => none
  | x :: y :: rest => do
    let b ← readPair x y
    let bytes ← readPairs rest
    return b :: bytes

section Pairs
variable {digit : UInt8 → UInt8}

theorem nibbles (b : UInt8) : b / 16 < 16 ∧ b % 16 < 16 ∧ 16 * (b / 16) + b % 16 = b := by
  have hb := b.toNat_lt
  refine ⟨?_, ?_, ?_⟩
  · rw [UInt8.lt_iff_toNat_lt, UInt8.toNat_div, show (16 : UInt8).toNat = 16 from rfl]
    omega
  · rw [UInt8.lt_iff_toNat_lt, UInt8.toNat_mod, show (16 : UInt8).toNat = 16 from rfl]
    omega
  · rw [← UInt8.toNat_inj, UInt8.toNat_add, UInt8.toNat_mul, UInt8.toNat_div, UInt8.toNat_mod,
      show (16 : UInt8).toNat = 16 from rfl]
    omega

theorem readPair_digits (h : IsHexDigits digit) (b : UInt8) :
    readPair (digit (b / 16)) (digit (b % 16)) = some b := by
  obtain ⟨hhigh, hlow, hb⟩ := nibbles b
  simp only [readPair, h _ hhigh, h _ hlow, Option.bind_eq_bind, Option.bind_some, hb,
    Option.pure_def]

@[simp] theorem hexPairs_nil : hexPairs digit [] = [] := rfl

theorem hexPairs_cons (b : UInt8) (bytes : List UInt8) : hexPairs digit (b :: bytes) =
    digit (b / 16) :: digit (b % 16) :: hexPairs digit bytes := rfl

theorem length_hexPairs (bytes : List UInt8) :
    (hexPairs digit bytes).length = 2 * bytes.length := by
  induction bytes with
  | nil => rfl
  | cons b bytes ih =>
    rw [hexPairs_cons, List.length_cons, List.length_cons, ih, List.length_cons]
    omega

theorem hexPairs_getElem? {bytes : List UInt8} {i : Nat} {b : UInt8} (h : bytes[i]? = some b) :
    (hexPairs digit bytes)[2 * i]? = some (digit (b / 16)) ∧
      (hexPairs digit bytes)[2 * i + 1]? = some (digit (b % 16)) := by
  induction bytes generalizing i with
  | nil => simp at h
  | cons a bytes ih =>
    rw [hexPairs_cons]
    cases i with
    | zero =>
      cases h
      exact ⟨rfl, rfl⟩
    | succ i =>
      have := ih (by simpa using h)
      rw [show 2 * (i + 1) = 2 * i + 1 + 1 by omega]
      simpa using this

theorem zero_not_mem_hexPairs (h : IsHexDigits digit) (bytes : List UInt8) :
    0 ∉ hexPairs digit bytes := by
  have hdigit : ∀ d < 16, digit d ≠ 0 := by
    intro d hd hzero
    have := h d hd
    rw [hzero, show hexValue 0 = none from rfl] at this
    cases this
  intro hmem
  obtain ⟨b, _, hb⟩ := List.mem_flatMap.mp hmem
  obtain ⟨hhigh, hlow, _⟩ := nibbles b
  rcases List.mem_cons.mp hb with h0 | hb
  · exact hdigit _ hhigh h0.symm
  · exact hdigit _ hlow (List.mem_singleton.mp hb).symm

theorem readPairs_hexPairs (h : IsHexDigits digit) (bytes : List UInt8) :
    readPairs (hexPairs digit bytes) = some bytes := by
  induction bytes with
  | nil => rfl
  | cons b bytes ih => simp [hexPairs_cons, readPairs, readPair_digits h, ih]

end Pairs

/-! ## Percent-encoding -/

/-- The characters that stand for themselves. -/
def unreserved (c : UInt8) : Bool :=
  (48 ≤ c && c ≤ 57) || (65 ≤ c && c ≤ 90) || (97 ≤ c && c ≤ 122) ||
    c == 45 || c == 46 || c == 95 || c == 126

/-- A character, or `%` and its two digits. -/
def percentChar (c : UInt8) : List UInt8 := if unreserved c then [c] else 37 :: hexPair upperDigit c

def percentEncode (cs : List UInt8) : List UInt8 := cs.flatMap percentChar

/-- A `%` without two digits behind it is left as it is. -/
def percentDecode : List UInt8 → List UInt8
  | [] => []
  | c :: rest =>
    match c, rest with
    | 37, x :: y :: rest =>
      match readPair x y with
      | some b => b :: percentDecode rest
      | none => 37 :: percentDecode (x :: y :: rest)
    | c, rest => c :: percentDecode rest

theorem percentDecode_percentChar (c : UInt8) (rest : List UInt8) :
    percentDecode (percentChar c ++ rest) = c :: percentDecode rest := by
  unfold percentChar
  split
  · next h =>
    have hne : c ≠ 37 := by
      rintro rfl
      exact absurd h (by decide)
    rw [List.singleton_append, percentDecode]
    rintro _ _ _ rfl
    exact absurd rfl hne
  · simp [hexPair, percentDecode, readPair_digits isHexDigits_upper]

theorem percentDecode_percentEncode (cs : List UInt8) : percentDecode (percentEncode cs) = cs := by
  induction cs with
  | nil => rfl
  | cons c cs ih =>
    rw [percentEncode, List.flatMap_cons, percentDecode_percentChar, ← percentEncode, ih]

theorem length_percentChar (c : UInt8) : (percentChar c).length ≤ 3 := by
  unfold percentChar
  split <;> simp [hexPair]

theorem length_percentEncode (cs : List UInt8) : (percentEncode cs).length ≤ 3 * cs.length := by
  induction cs with
  | nil => exact Nat.le_refl 0
  | cons c cs ih =>
    have hc := length_percentChar c
    rw [percentEncode] at ih ⊢
    rw [List.flatMap_cons, List.length_append, List.length_cons]
    omega

theorem zero_not_mem_percentEncode (cs : List UInt8) : 0 ∉ percentEncode cs := by
  intro hmem
  obtain ⟨c, _, hc⟩ := List.mem_flatMap.mp hmem
  unfold percentChar at hc
  split at hc
  · next h =>
    rw [← List.mem_singleton.mp hc] at h
    exact absurd h (by decide)
  · rcases List.mem_cons.mp hc with h0 | hc
    · cases h0
    · have hnone := zero_not_mem_hexPairs isHexDigits_upper [c]
      rw [hexPairs, List.flatMap_singleton] at hnone
      exact hnone hc

end CSem
