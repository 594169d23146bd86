import Mikelibc.Lib.Control
import Mathlib.Logic.Function.Basic

/-! # Allocated blocks, strings and C integers

A block remembers how many bytes were requested for it and what each of its
elements holds; an access outside the request, or a read of an element that was
never written, is a `fault`. Strings carry the facts C relies on: no NUL before
the terminator, and a length that is a `size_t`. Sizes are `UInt64`; an `int`
is a number together with the check that arithmetic stays in range. -/
namespace CSem

/-! ## Integers -/

def intMax : Nat := 2147483647

/-- Signed addition of `int` values that are not negative: overflow is undefined. -/
def intAdd (a b : Nat) : Outcome Nat := do
  Outcome.require (a + b ≤ intMax)
  return a + b

/-- Conversion of a `size_t` to `int`, modulo 2^32. -/
def toInt (n : UInt64) : Int := Int.bmod n.toNat (2 ^ 32)

/-- Conversion of an `int` to `size_t`, modulo 2^64. -/
def toSize (z : Int) : UInt64 := UInt64.ofInt z

theorem intAdd_of {a b : Nat} (h : a + b ≤ intMax) : intAdd a b = .ok (a + b) := by
  simp [intAdd, Outcome.require_of h]

theorem intAdd_eq_ok {a b c : Nat} : intAdd a b = .ok c ↔ a + b ≤ intMax ∧ c = a + b := by
  by_cases h : a + b ≤ intMax
  · rw [intAdd_of h]
    simp [h, eq_comm]
  · simp [intAdd, Outcome.require, h]

theorem toInt_of_le {n : UInt64} (h : n.toNat ≤ intMax) : toInt n = n.toNat := by
  unfold toInt
  unfold intMax at h
  rw [Int.bmod_eq_of_le] <;> omega

theorem toSize_natCast {n : Nat} (h : n < 2 ^ 64) : (toSize n).toNat = n := by
  have : toSize (n : Int) = UInt64.ofNat n := by
    unfold toSize UInt64.ofInt
    congr 1
    omega
  rw [this, UInt64.toNat_ofNat']
  exact Nat.mod_eq_of_lt h

/-- `xs[i]` of an array the code only reads. -/
def readAt {α : Type} (xs : List α) (i : Nat) : Outcome α :=
  match xs[i]? with
  | some x => .ok x
  | none => .fault

theorem readAt_of {α : Type} {xs : List α} {i : Nat} {x : α} (h : xs[i]? = some x) :
    readAt xs i = .ok x := by
  simp [readAt, h]

@[simp] theorem straight_intAdd (a b : Nat) : (intAdd a b).Straight :=
  (Outcome.straight_require _).bind fun _ _ => Outcome.straight_ok _

@[simp] theorem straight_readAt {α : Type} (xs : List α) (i : Nat) : (readAt xs i).Straight := by
  unfold readAt; split <;> simp

/-! ## Blocks -/

/-- A block from `malloc`: the bytes requested and what its elements, `width`
bytes each, hold (`none`: never written). -/
structure Block (α : Type) (width : Nat) where
  bytes : Nat
  cell : Nat → Option α

namespace Block
variable {α : Type} {w : Nat}

/-- Element `i` lies within the requested bytes. -/
def Fits (b : Block α w) (i : Nat) : Prop := w * (i + 1) ≤ b.bytes

instance (b : Block α w) (i : Nat) : Decidable (b.Fits i) := inferInstanceAs (Decidable (_ ≤ _))

/-- The block `malloc` returns: nothing in it has been written. -/
def alloc (bytes : Nat) : Block α w := ⟨bytes, fun _ => none⟩

/-- The same block with what its elements happen to hold. -/
def fresh (bytes : Nat) (contents : Nat → α) : Block α w := ⟨bytes, fun i => some (contents i)⟩

@[simp] theorem fresh_bytes (bytes : Nat) (contents : Nat → α) :
    (fresh bytes contents : Block α w).bytes = bytes := rfl

/-- The block `realloc` returns keeps the elements that lie in both requests. -/
def realloc (b : Block α w) (bytes : Nat) : Block α w :=
  ⟨bytes, fun i => if w * (i + 1) ≤ min b.bytes bytes then b.cell i else none⟩

def load (b : Block α w) (i : Nat) : Outcome α := do
  Outcome.require (b.Fits i)
  match b.cell i with
  | some x => return x
  | none => .fault

def store (b : Block α w) (i : Nat) (x : α) : Outcome (Block α w) := do
  Outcome.require (b.Fits i)
  return { b with cell := Function.update b.cell i (some x) }

/-- `memmove(b + dst, b + src, width * n)`. Copying an element that was never
written counts as a fault too, so a copy that succeeds moved real contents. -/
def memmove (b : Block α w) (dst src n : Nat) : Outcome (Block α w) := do
  Outcome.require (n = 0 ∨ (b.Fits (dst + n - 1) ∧ b.Fits (src + n - 1)))
  Outcome.require (∀ i < n, (b.cell (src + i)).isSome)
  return { b with
    cell := fun i => if dst ≤ i ∧ i < dst + n then b.cell (src + (i - dst)) else b.cell i }

/-- The elements from `k` on hold `xs`. -/
def Holds (b : Block α w) (k : Nat) (xs : List α) : Prop :=
  ∀ i x, xs[i]? = some x → b.cell (k + i) = some x

theorem load_of {b : Block α w} {i : Nat} {x : α} (hf : b.Fits i) (hc : b.cell i = some x) :
    b.load i = .ok x := by
  simp [load, Outcome.require_of hf, hc]

theorem store_of {b : Block α w} {i : Nat} (x : α) (hf : b.Fits i) :
    b.store i x = .ok { b with cell := Function.update b.cell i (some x) } := by
  simp [store, Outcome.require_of hf]

theorem store_eq_ok {b b' : Block α w} {i : Nat} {x : α} :
    b.store i x = .ok b' ↔ b.Fits i ∧ b' = { b with cell := Function.update b.cell i (some x) } := by
  constructor
  · intro h
    obtain ⟨_, hf, h⟩ := Outcome.bind_eq_ok.mp h
    exact ⟨Outcome.require_eq_ok.mp hf, (Outcome.ok.inj h).symm⟩
  · rintro ⟨hf, rfl⟩; exact store_of x hf

theorem load_eq_ok {b : Block α w} {i : Nat} {x : α} (h : b.load i = .ok x) :
    b.cell i = some x := by
  obtain ⟨_, _, h⟩ := Outcome.bind_eq_ok.mp h
  split at h
  · next hc =>
    cases h
    exact hc
  · cases h

@[simp] theorem straight_load (b : Block α w) (i : Nat) : (b.load i).Straight :=
  (Outcome.straight_require _).bind fun _ _ => by split <;> simp

@[simp] theorem straight_store (b : Block α w) (i : Nat) (x : α) : (b.store i x).Straight :=
  (Outcome.straight_require _).bind fun _ _ => Outcome.straight_ok _

theorem memmove_of {b : Block α w} {dst src n : Nat}
    (hin : n = 0 ∨ (b.Fits (dst + n - 1) ∧ b.Fits (src + n - 1)))
    (hw : ∀ i < n, (b.cell (src + i)).isSome) :
    b.memmove dst src n = .ok ⟨b.bytes, fun i =>
      if dst ≤ i ∧ i < dst + n then b.cell (src + (i - dst)) else b.cell i⟩ := by
  simp [memmove, Outcome.require_of hin, Outcome.require_of hw]

theorem memmove_eq_ok {b b' : Block α w} {dst src n : Nat} (h : b.memmove dst src n = .ok b') :
    (∀ i < n, (b.cell (src + i)).isSome) ∧ b' = ⟨b.bytes, fun i =>
      if dst ≤ i ∧ i < dst + n then b.cell (src + (i - dst)) else b.cell i⟩ := by
  obtain ⟨_, _, h⟩ := Outcome.bind_eq_ok.mp h
  obtain ⟨_, hw, h⟩ := Outcome.bind_eq_ok.mp h
  exact ⟨Outcome.require_eq_ok.mp hw, (Outcome.ok.inj h).symm⟩

theorem memmove_isSome {b b' : Block α w} {dst src n i : Nat} (h : b.memmove dst src n = .ok b')
    (hi : (b.cell i).isSome) : (b'.cell i).isSome := by
  obtain ⟨hw, rfl⟩ := memmove_eq_ok h
  by_cases hin : dst ≤ i ∧ i < dst + n
  · simp only [hin, and_self, if_true]
    exact hw (i - dst) (by omega)
  · simp only [hin, if_false]
    exact hi

/-- Elements moved to where they are, or none. -/
theorem memmove_nothing {b b' : Block α w} {dst src n : Nat} (hnothing : src = dst ∨ n = 0)
    (h : b.memmove dst src n = .ok b') : b' = b := by
  obtain ⟨_, rfl⟩ := memmove_eq_ok h
  congr 1
  funext i
  split
  · next hin => rw [show src + (i - dst) = i by omega]
  · rfl

@[simp] theorem holds_nil (b : Block α w) (k : Nat) : b.Holds k [] := by
  intro i x h; simp at h

theorem holds_cons {b : Block α w} {k : Nat} {x : α} {xs : List α} :
    b.Holds k (x :: xs) ↔ b.cell k = some x ∧ b.Holds (k + 1) xs := by
  constructor
  · intro h
    refine ⟨h 0 x rfl, fun i y hy => ?_⟩
    have := h (i + 1) y (by simpa using hy)
    rwa [show k + 1 + i = k + (i + 1) by omega]
  · rintro ⟨h0, hs⟩ i y hy
    cases i with
    | zero => simp only [List.getElem?_cons_zero, Option.some.injEq] at hy; exact hy ▸ h0
    | succ i =>
      rw [show k + (i + 1) = k + 1 + i by omega]
      exact hs i y (by simpa using hy)

theorem holds_append {b : Block α w} {k : Nat} {xs ys : List α} :
    b.Holds k (xs ++ ys) ↔ b.Holds k xs ∧ b.Holds (k + xs.length) ys := by
  induction xs generalizing k with
  | nil => simp
  | cons x xs ih =>
    rw [List.cons_append, holds_cons, holds_cons, ih, List.length_cons, and_assoc,
      show k + 1 + xs.length = k + (xs.length + 1) by omega]

theorem Holds.cell_lt {b : Block α w} {k i : Nat} {xs : List α} (h : b.Holds k xs)
    (hi : i < xs.length) : b.cell (k + i) = some xs[i] :=
  h i _ (List.getElem?_eq_getElem hi)

theorem Holds.unique {b : Block α w} {k : Nat} {xs ys : List α} (hx : b.Holds k xs)
    (hy : b.Holds k ys) (hlen : xs.length = ys.length) : xs = ys :=
  List.ext_getElem hlen fun _ h h' => Option.some.inj ((hx.cell_lt h).symm.trans (hy.cell_lt h'))

theorem Holds.congr {b b' : Block α w} {k : Nat} {xs : List α} (h : b.Holds k xs)
    (hc : ∀ i, k ≤ i → i < k + xs.length → b'.cell i = b.cell i) : b'.Holds k xs := by
  intro i x hx
  have hi := (List.getElem?_eq_some_iff.mp hx).1
  rw [hc (k + i) (by omega) (by omega)]
  exact h i x hx

/-! ### Consecutive stores -/

/-- The block after `xs` has been stored from `k` on. -/
def write (b : Block α w) (k : Nat) (xs : List α) : Block α w :=
  { b with cell := fun i => if k ≤ i ∧ i < k + xs.length then xs[i - k]? else b.cell i }

@[simp] theorem write_bytes (b : Block α w) (k : Nat) (xs : List α) :
    (b.write k xs).bytes = b.bytes :=
  rfl

@[simp] theorem write_nil (b : Block α w) (k : Nat) : b.write k [] = b := by
  simp only [write, List.length_nil, Nat.add_zero]
  congr 1
  funext i
  exact if_neg (by omega)

theorem write_cell (b : Block α w) {k i : Nat} {xs : List α} (h : i < xs.length) :
    (b.write k xs).cell (k + i) = some xs[i] := by
  simp [write, h]

theorem holds_write (b : Block α w) (k : Nat) (xs : List α) : (b.write k xs).Holds k xs := by
  intro i x hx
  obtain ⟨hi, rfl⟩ := List.getElem?_eq_some_iff.mp hx
  exact b.write_cell hi

theorem write_append (b : Block α w) (k : Nat) (xs ys : List α) :
    b.write k (xs ++ ys) = (b.write k xs).write (k + xs.length) ys := by
  simp only [write, List.length_append, Block.mk.injEq, true_and]
  funext i
  by_cases h₁ : k + xs.length ≤ i
  · rw [List.getElem?_append_right (by omega), show i - (k + xs.length) = i - k - xs.length by omega]
    grind
  · grind

/-- `xs` is copied into the block from `k` on; nothing is accessed if there is nothing to copy. -/
def put (b : Block α w) (k : Nat) (xs : List α) : Outcome (Block α w) := do
  Outcome.require (xs.length = 0 ∨ w * (k + xs.length) ≤ b.bytes)
  return b.write k xs

theorem put_of {b : Block α w} {k : Nat} {xs : List α} (h : w * (k + xs.length) ≤ b.bytes) :
    b.put k xs = .ok (b.write k xs) := by
  rw [put, Outcome.require_of (.inr h)]
  rfl

theorem put_past {b : Block α w} {k : Nat} {xs : List α} (hk : w * k ≤ b.bytes)
    (h : ¬ w * (k + xs.length) ≤ b.bytes) : b.put k xs = .fault := by
  have hne : xs.length ≠ 0 := fun h0 => h (by rwa [h0])
  rw [put, Outcome.require_of_not (not_or.mpr ⟨hne, h⟩)]
  rfl

theorem store_write (b : Block α w) (k : Nat) (xs : List α) (x : α) (hf : b.Fits (k + xs.length)) :
    (b.write k xs).store (k + xs.length) x = .ok (b.write k (xs ++ [x])) := by
  rw [store_of x (by simpa [Fits] using hf), write_append]
  congr 2
  funext i
  simp only [write, List.length_singleton, Function.update_apply]
  grind

theorem store_write_one {b : Block α w} {k : Nat} (x : α) (hf : b.Fits k) :
    b.store k x = .ok (b.write k [x]) := by
  rw [store_of x hf]
  congr 2
  funext i
  simp only [List.length_singleton, Function.update_apply]
  grind

theorem store_write_set {b : Block α w} {k i : Nat} {xs : List α} (x : α) (hi : i < xs.length)
    (hf : b.Fits (k + i)) : (b.write k xs).store (k + i) x = .ok (b.write k (xs.set i x)) := by
  rw [store_of x (by simpa [Fits] using hf)]
  congr 2
  funext j
  simp only [write, List.length_set, Function.update_apply, List.getElem?_set]
  grind

theorem Holds.store_end {b : Block α w} {k : Nat} {xs : List α} (h : b.Holds k xs) (x : α)
    (hf : b.Fits (k + xs.length)) :
    ∃ b', b.store (k + xs.length) x = .ok b' ∧ b'.bytes = b.bytes ∧ b'.Holds k (xs ++ [x]) := by
  refine ⟨_, store_of x hf, rfl, holds_append.mpr ⟨?_, holds_cons.mpr ⟨?_, holds_nil _ _⟩⟩⟩
  · exact h.congr fun i _ hi => Function.update_of_ne (by omega) _ _
  · exact Function.update_self _ _ _

/-- A block that is not made too small keeps what it holds. -/
theorem Holds.realloc {b : Block α w} {xs : List α} {bytes : Nat} (h : b.Holds 0 xs)
    (hold : w * xs.length ≤ b.bytes) (hnew : w * xs.length ≤ bytes) :
    (b.realloc bytes).Holds 0 xs := by
  refine h.congr fun i _ hi => if_pos ?_
  have := Nat.mul_le_mul_left w (show i + 1 ≤ xs.length by omega)
  omega

end Block

/-! ## Strings -/

/-- A NUL-terminated string: the bytes before the terminator. -/
structure CString where
  chars : List UInt8
  noNul : 0 ∉ chars
  fits : chars.length < 2 ^ 64

namespace CString

def strlen (s : CString) : UInt64 := UInt64.ofNat s.chars.length

/-- `s[i]`: the terminator may be read too. -/
def get (s : CString) (i : Nat) : Outcome UInt8 := do
  Outcome.require (i ≤ s.chars.length)
  return s.chars[i]?.getD 0

@[simp] theorem strlen_toNat (s : CString) : s.strlen.toNat = s.chars.length := by
  rw [strlen, UInt64.toNat_ofNat']
  exact Nat.mod_eq_of_lt s.fits

theorem toInt_strlen {s : CString} (h : s.chars.length ≤ intMax) :
    toInt s.strlen = s.chars.length := by
  rw [toInt_of_le (by rwa [s.strlen_toNat]), s.strlen_toNat]

theorem get_of {s : CString} {i : Nat} {c : UInt8} (h : s.chars[i]? = some c) :
    s.get i = .ok c := by
  have hi := (List.getElem?_eq_some_iff.mp h).1
  simp [get, Outcome.require_of (Nat.le_of_lt hi), h]

@[simp] theorem straight_get (s : CString) (i : Nat) : (s.get i).Straight :=
  (Outcome.straight_require _).bind fun _ _ => Outcome.straight_ok _

end CString

/-- The bytes from `i` up to the terminator. -/
def Block.readStr (b : Block UInt8 1) : Nat → Nat → Outcome (List UInt8)
  | 0, _ => .fault
  | fuel + 1, i => do
    let c ← b.load i
    if c = 0 then return []
    let cs ← b.readStr fuel (i + 1)
    return c :: cs

/-- The string a `char *` to the start of the block denotes. -/
def Block.cstring (b : Block UInt8 1) : Outcome CString := do
  let cs ← b.readStr (b.bytes + 1) 0
  if h : 0 ∉ cs ∧ cs.length < 2 ^ 64 then return ⟨cs, h.1, h.2⟩ else .fault

def CString.ofChars (cs : List UInt8) : Option CString :=
  if h : 0 ∉ cs ∧ cs.length < 2 ^ 64 then some ⟨cs, h.1, h.2⟩ else none

theorem CString.ofChars_chars (s : CString) : CString.ofChars s.chars = some s :=
  dif_pos ⟨s.noNul, s.fits⟩

theorem Block.readStr_of {b : Block UInt8 1} :
    ∀ (cs : List UInt8) (fuel k : Nat), b.Holds k (cs ++ [0]) → 0 ∉ cs →
      k + cs.length < b.bytes → cs.length < fuel → b.readStr fuel k = .ok cs
  | _, 0, _, _, _, _, hf => by omega
  | [], fuel + 1, k, hh, _, hb, _ => by
    have h0 := (Block.holds_cons.mp (by simpa using hh)).1
    have hfit : b.Fits k := by unfold Block.Fits; simp at hb; omega
    simp [readStr, Block.load_of hfit h0]
  | c :: cs, fuel + 1, k, hh, hnul, hb, hf => by
    obtain ⟨hc, hcs⟩ := Block.holds_cons.mp (by simpa using hh)
    simp only [List.mem_cons, not_or, List.length_cons] at hnul hb hf
    have hfit : b.Fits k := by unfold Block.Fits; omega
    have ih := readStr_of cs fuel (k + 1) hcs hnul.2 (by omega) (by omega)
    simp [readStr, Block.load_of hfit hc, Ne.symm hnul.1, ih]

/-- A block that holds a string and its terminator denotes that string. -/
theorem Block.cstring_of {b : Block UInt8 1} (s : CString) (hh : b.Holds 0 (s.chars ++ [0]))
    (hb : s.chars.length < b.bytes) : b.cstring = .ok s := by
  have h := readStr_of s.chars (b.bytes + 1) 0 hh s.noNul (by omega) (by omega)
  simp only [cstring, h, Outcome.ok_bind, dif_pos (And.intro s.noNul s.fits), Outcome.pure_eq]

theorem Block.readStr_unterminated {b : Block UInt8 1} :
    ∀ (fuel k : Nat), (∀ i, k ≤ i → i < b.bytes → b.cell i ≠ some 0) → b.readStr fuel k = .fault
  | 0, _, _ => rfl
  | fuel + 1, k, h => by
    unfold readStr Block.load
    by_cases hfit : b.Fits k
    · rw [Outcome.require_of hfit, Outcome.ok_bind]
      have hk : k < b.bytes := by unfold Block.Fits at hfit; omega
      cases hc : b.cell k with
      | none => rfl
      | some c =>
        have hc0 : c ≠ 0 := fun h0 => h k (Nat.le_refl k) hk (h0 ▸ hc)
        have ih := readStr_unterminated fuel (k + 1) fun i hi hlt => h i (by omega) hlt
        simp [hc0, ih]
    · rw [Outcome.require_of_not hfit]
      rfl

/-- Without a NUL in the block the read goes past its end. -/
theorem Block.cstring_unterminated {b : Block UInt8 1} (h : ∀ i < b.bytes, b.cell i ≠ some 0) :
    b.cstring = .fault := by
  unfold cstring
  rw [readStr_unterminated _ 0 fun i _ hi => h i hi]
  rfl

/-- What a read found is what the block holds, up to the terminator. -/
theorem Block.readStr_holds {b : Block UInt8 1} :
    ∀ {fuel k : Nat} {cs : List UInt8}, b.readStr fuel k = .ok cs → b.Holds k (cs ++ [0])
  | 0, _, _, h => by cases h
  | fuel + 1, k, cs, h => by
    obtain ⟨c, hload, h⟩ := Outcome.bind_eq_ok.mp h
    have hcell := load_eq_ok hload
    split at h
    · next hc =>
      cases h
      exact holds_cons.mpr ⟨hc ▸ hcell, holds_nil _ _⟩
    · obtain ⟨cs', hrest, h⟩ := Outcome.bind_eq_ok.mp h
      cases h
      exact holds_cons.mpr ⟨hcell, readStr_holds hrest⟩

theorem Block.cstring_holds {b : Block UInt8 1} {s : CString} (h : b.cstring = .ok s) :
    b.Holds 0 (s.chars ++ [0]) := by
  obtain ⟨cs, hread, h⟩ := Outcome.bind_eq_ok.mp h
  split at h
  · cases h
    exact readStr_holds hread
  · cases h

/-- A string ends at the first NUL. -/
theorem Block.length_lt_of_holds {b : Block UInt8 1} {s : CString} {cs : List UInt8}
    (hs : b.cstring = .ok s) (h : b.Holds 0 cs) (h0 : 0 ∈ cs) : s.chars.length < cs.length := by
  obtain ⟨i, hi, hzero⟩ := List.mem_iff_getElem.mp h0
  by_contra hge
  have hlt : i < s.chars.length := by omega
  have hstring := (holds_append.mp (cstring_holds hs)).1.cell_lt hlt
  have hcell := h.cell_lt hi
  rw [hstring, hzero] at hcell
  exact s.noNul (Option.some.inj hcell ▸ List.getElem_mem hlt)

@[simp] theorem Block.straight_readStr (b : Block UInt8 1) :
    ∀ (fuel k : Nat), (b.readStr fuel k).Straight
  | 0, _ => Outcome.straight_fault
  | fuel + 1, k => by
    refine (b.straight_load k).bind fun c _ => ?_
    split
    · exact Outcome.straight_ok _
    · exact (straight_readStr b fuel (k + 1)).bind fun _ _ => Outcome.straight_ok _

@[simp] theorem Block.straight_cstring (b : Block UInt8 1) : b.cstring.Straight :=
  (b.straight_readStr _ _).bind fun cs _ => by split <;> simp

def Block.strcpy (b : Block UInt8 1) (s : CString) : Outcome (Block UInt8 1) := do
  Outcome.require (s.chars.length < b.bytes)
  return b.write 0 (s.chars ++ [0])

theorem Block.strcpy_of {b : Block UInt8 1} {s : CString} (h : s.chars.length < b.bytes) :
    b.strcpy s = .ok (b.write 0 (s.chars ++ [0])) := by
  simp [strcpy, Outcome.require_of h]

theorem Block.strcpy_past {b : Block UInt8 1} {s : CString} (h : ¬ s.chars.length < b.bytes) :
    b.strcpy s = .fault := by
  simp [strcpy, Outcome.require_of_not h]

/-- `strncpy(b, s + off, n)`: up to `n` characters, filled up with NULs. -/
def Block.strncpy (b : Block UInt8 1) (s : CString) (off n : Nat) : Outcome (Block UInt8 1) := do
  Outcome.require (off ≤ s.chars.length ∧ n ≤ b.bytes)
  let cs := (s.chars.drop off).take n
  return b.write 0 (cs ++ List.replicate (n - cs.length) 0)

/-- Copying whole characters only: nothing is filled up. -/
theorem Block.strncpy_of {b : Block UInt8 1} {s : CString} {n : Nat} (off : Nat)
    (hoff : off + n ≤ s.chars.length) (hn : n ≤ b.bytes) :
    b.strncpy s off n = .ok (b.write 0 ((s.chars.drop off).take n)) := by
  have hlen : ((s.chars.drop off).take n).length = n := by
    rw [List.length_take, List.length_drop]; omega
  simp [strncpy, Outcome.require_of (show off ≤ s.chars.length ∧ n ≤ b.bytes by omega), hlen]

theorem Block.strncpy_past {b : Block UInt8 1} {s : CString} {n : Nat} (off : Nat)
    (hn : ¬ n ≤ b.bytes) : b.strncpy s off n = .fault := by
  simp [strncpy, Outcome.require_of_not (fun h : off ≤ s.chars.length ∧ n ≤ b.bytes => hn h.2)]

end CSem
