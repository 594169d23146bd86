import Mikelibc.Lib.Digits
import Mikelibc.Lib.Memory

/-! # `tohex` of `mutil.c`

The block that `malloc` returns is given with what it happens to hold: one byte of it,
the last, is not written by the code. `index` is an `int`; it stays one for inputs of up
to 2^30 - 1 bytes. -/
namespace Mikelibc.Hex
open CSem

/-! ## The code -/

/-- What `sprintf` makes of `"%02x"`. -/
def twoDigits (c : Nat) : List UInt8 :=
  let digits := (Nat.toDigits 16 c).map Char.toUInt8
  List.replicate (2 - digits.length) '0'.toUInt8 ++ digits

/-- `sprintf(hexbuf, "%02x", c)`, with the terminator, into three characters. -/
def sprintfHex (c : Nat) : Outcome (List UInt8) := do
  Outcome.require ((twoDigits c).length + 1 ≤ 3)
  return twoDigits c

structure HexVars where
  hexstring : Block UInt8 1
  index : Nat
  i : Nat

def hexRound (input : List UInt8) (v : HexVars) : Outcome HexVars := do
  let c ← readAt input v.i
  let hexbuf ← sprintfHex c.toNat
  let hexstring ← v.hexstring.store v.index (← readAt hexbuf 0)
  let index ← intAdd v.index 1
  let hexstring ← hexstring.store index (← readAt hexbuf 1)
  let index ← intAdd index 1
  return { hexstring := hexstring, index := index, i := v.i + 1 }

def hexLoop (input : List UInt8) (inLength : UInt64) : Nat → HexVars → Outcome HexVars :=
  whileLoop (fun v => return decide (v.i < inLength.toNat)) (hexRound input)

/-- `tohex`: the string, or `NULL` if `malloc` refuses. -/
def tohex (malloc : Nat → Option (Nat → UInt8)) (input : List UInt8) (inLength : UInt64) :
    Outcome (Option (Block UInt8 1)) := do
  let bytes := (inLength * 2 + 1).toNat
  match malloc bytes with
  | none => return none
  | some contents =>
    let v ← hexLoop input inLength (inLength.toNat + 1) {
      hexstring := Block.fresh bytes contents
      index := 0
      i := 0 }
    return some v.hexstring

/-! ## What it computes -/

variable {input pre rest : List UInt8} {b : UInt8} {v : HexVars}

theorem twoDigits_toNat (b : UInt8) : twoDigits b.toNat = hexPair lowerDigit b := by
  have hall : ∀ n : Fin 256, twoDigits n = hexPair lowerDigit (UInt8.ofNat n) := by decide +kernel
  simpa using hall ⟨b.toNat, b.toNat_lt⟩

theorem hexRound_eq (hi : input[v.i]? = some b) (hfit : v.index + 2 ≤ v.hexstring.bytes)
    (hmax : v.index + 2 ≤ intMax) :
    hexRound input v = .ok {
      hexstring := v.hexstring.write v.index (hexPair lowerDigit b)
      index := v.index + 2
      i := v.i + 1 } := by
  have hbuf : sprintfHex b.toNat = .ok (hexPair lowerDigit b) := by
    simp [sprintfHex, twoDigits_toNat, hexPair, Outcome.require]
  have hfirst := Block.store_write_one (b := v.hexstring) (k := v.index) (lowerDigit (b / 16))
    (by unfold Block.Fits; omega)
  have hsecond := Block.store_write v.hexstring v.index [lowerDigit (b / 16)] (lowerDigit (b % 16))
    (by simp only [Block.Fits, List.length_singleton]; omega)
  simp only [List.length_singleton, List.singleton_append] at hsecond
  have hread₀ : readAt (hexPair lowerDigit b) 0 = .ok (lowerDigit (b / 16)) := rfl
  have hread₁ : readAt (hexPair lowerDigit b) 1 = .ok (lowerDigit (b % 16)) := rfl
  simp only [hexRound, readAt_of hi, Outcome.ok_bind, hbuf, hread₀, hread₁]
  rw [hfirst, Outcome.ok_bind, intAdd_of (by omega), Outcome.ok_bind, hsecond, Outcome.ok_bind,
    intAdd_of (by omega)]
  rfl

/-- The loop stores the digits of what is left of the input. -/
theorem hexLoop_eq {n : UInt64} :
    ∀ (fuel : Nat) (pre rest : List UInt8) (v : HexVars), rest.length < fuel →
      n.toNat = (pre ++ rest).length → v.i = pre.length →
      v.index + 2 * rest.length ≤ v.hexstring.bytes → v.index + 2 * rest.length ≤ intMax →
      hexLoop (pre ++ rest) n fuel v = .ok {
        hexstring := v.hexstring.write v.index (hexPairs lowerDigit rest)
        index := v.index + 2 * rest.length
        i := n.toNat } := by
  intro fuel
  induction fuel with
  | zero => intro pre rest v hf; omega
  | succ fuel ih =>
    intro pre rest v hf hn hi hfit hmax
    cases rest with
    | nil =>
      have hend : v.i = n.toNat := by rw [hi, hn, List.append_nil]
      rw [hexLoop, whileLoop_exit (by simp [hend])]
      simp [← hend]
    | cons b rest =>
      simp only [List.length_cons, List.length_append] at hf hn hfit hmax
      have hcond : v.i < n.toNat := by omega
      have hread : (pre ++ b :: rest)[v.i]? = some b := by
        rw [hi, List.getElem?_append_right (Nat.le_refl _), Nat.sub_self]
        rfl
      have hpairs : hexPairs lowerDigit (b :: rest) =
          hexPair lowerDigit b ++ hexPairs lowerDigit rest := List.flatMap_cons
      have hrec := ih (pre ++ [b]) rest
        { hexstring := v.hexstring.write v.index (hexPair lowerDigit b)
          index := v.index + 2, i := v.i + 1 }
        (by omega) (by simp only [List.length_append, List.length_singleton]; omega)
        (by simp only [List.length_append, List.length_singleton]; omega)
        (by simp only [Block.write_bytes]; omega) (by simp only; omega)
      rw [hexLoop, whileLoop_round (by simp [hcond]) (hexRound_eq hread (by omega) (by omega)),
        ← hexLoop, List.append_cons, hrec, hpairs, Block.write_append]
      simp only [hexPair, List.length_cons, List.length_nil, Outcome.ok.injEq, HexVars.mk.injEq,
        true_and, and_true]
      omega

/-- The block that is returned: the digits, and behind them what was there. -/
theorem tohex_eq (malloc : Nat → Option (Nat → UInt8)) (input : List UInt8)
    (hmax : input.length ≤ 2 ^ 30 - 1) :
    tohex malloc input (UInt64.ofNat input.length) =
      .ok ((malloc (2 * input.length + 1)).map fun contents =>
        (Block.fresh (2 * input.length + 1) contents).write 0 (hexPairs lowerDigit input)) := by
  have hn : (UInt64.ofNat input.length).toNat = input.length := by
    rw [UInt64.toNat_ofNat']
    omega
  have hbytes : (UInt64.ofNat input.length * 2 + 1).toNat = 2 * input.length + 1 := by
    rw [UInt64.toNat_add, UInt64.toNat_mul, hn, show (2 : UInt64).toNat = 2 from rfl,
      show (1 : UInt64).toNat = 1 from rfl]
    omega
  unfold tohex
  simp only [hbytes]
  cases malloc (2 * input.length + 1) with
  | none => rfl
  | some contents =>
    have hloop := hexLoop_eq ((UInt64.ofNat input.length).toNat + 1) [] input
      { hexstring := Block.fresh (2 * input.length + 1) contents, index := 0, i := 0 }
      (by omega) hn rfl (by simp only [Block.fresh]; omega) (by unfold intMax; simp only; omega)
    rw [List.nil_append] at hloop
    simp only [hloop, Outcome.ok_bind]
    rfl

/-! ## The string -/

/-- The block holds the digits of the input and a NUL: a string twice as long, from which the input
can be read back. -/
structure HexOf (input : List UInt8) (hexstring : Block UInt8 1) : Prop where
  digits : ∀ i b, input[i]? = some b → hexstring.cell (2 * i) = some (lowerDigit (b / 16)) ∧
    hexstring.cell (2 * i + 1) = some (lowerDigit (b % 16))
  terminated : hexstring.cell (2 * input.length) = some 0
  string : ∃ s, hexstring.cstring = .ok s ∧ s.chars.length = 2 * input.length ∧
    readPairs s.chars = some input

/-- The call returns, and it returns such a block if it returns one. -/
def ReturnsHex (malloc : Nat → Option (Nat → UInt8)) (input : List UInt8) : Prop :=
  ∃ r, tohex malloc input (UInt64.ofNat input.length) = .ok r ∧
    ∀ hexstring, r = some hexstring → HexOf input hexstring

/-- Behind the digits the block holds what it held before. -/
theorem cell_behind (contents : Nat → UInt8) (input : List UInt8) :
    ((Block.fresh (w := 1) (2 * input.length + 1) contents).write 0
      (hexPairs lowerDigit input)).cell (2 * input.length) =
        some (contents (2 * input.length)) := by
  simp only [Block.write, Block.fresh, length_hexPairs]
  exact if_neg (by omega)

theorem hexOf_write {contents : Nat → UInt8} (hmax : input.length ≤ 2 ^ 30 - 1)
    (hnul : contents (2 * input.length) = 0) :
    HexOf input ((Block.fresh (2 * input.length + 1) contents).write 0
      (hexPairs lowerDigit input)) := by
  have hholds := Block.holds_write (Block.fresh (w := 1) (2 * input.length + 1) contents) 0
    (hexPairs lowerDigit input)
  have hend := cell_behind contents input
  rw [hnul] at hend
  refine ⟨fun i b hb => ?_, hend, ?_⟩
  · obtain ⟨hhigh, hlow⟩ := @hexPairs_getElem? lowerDigit _ _ _ hb
    have h₁ := hholds _ _ hhigh
    have h₂ := hholds _ _ hlow
    rw [Nat.zero_add] at h₁ h₂
    exact ⟨h₁, h₂⟩
  · have hlen := @length_hexPairs lowerDigit input
    refine ⟨⟨hexPairs lowerDigit input, zero_not_mem_hexPairs isHexDigits_lower input, ?_⟩,
      Block.cstring_of _ (Block.holds_append.mpr ⟨hholds, ?_⟩) ?_, hlen,
      readPairs_hexPairs isHexDigits_lower input⟩
    · rw [hlen]
      omega
    · rw [hlen, Nat.zero_add]
      exact Block.holds_cons.mpr ⟨hend, Block.holds_nil _ _⟩
    · simp only [hlen, Block.write_bytes, Block.fresh]
      omega

/-- **When `tohex` returns a string**: if the byte behind the digits, which the code does not write,
happens to be a NUL. -/
theorem tohex_string_iff (malloc : Nat → Option (Nat → UInt8)) (input : List UInt8)
    (hmax : input.length ≤ 2 ^ 30 - 1) :
    ReturnsHex malloc input ↔
      ∀ contents, malloc (2 * input.length + 1) = some contents →
        contents (2 * input.length) = 0 := by
  unfold ReturnsHex
  rw [tohex_eq malloc input hmax]
  constructor
  · rintro ⟨r, hr, hhex⟩ contents hm
    rw [hm] at hr
    cases hr
    have hend := (hhex _ rfl).terminated
    rw [cell_behind] at hend
    exact Option.some.inj hend
  · intro h
    refine ⟨_, rfl, fun hexstring hsome => ?_⟩
    obtain ⟨contents, hm, rfl⟩ := Option.map_eq_some_iff.mp hsome
    exact hexOf_write hmax (h contents hm)

/-- Two bytes, in memory that is all NULs. -/
theorem tohex_string_zeroed : ReturnsHex (fun _ => some fun _ => 0) [0xDE, 0xAD] :=
  (tohex_string_iff (fun _ => some fun _ => 0) [0xDE, 0xAD] (by decide)).mpr
    fun _ hm => by cases hm; rfl

/-- They are followed by a character where the memory holds one. -/
theorem tohex_unterminated : ¬ ∀ (malloc : Nat → Option (Nat → UInt8)) (input : List UInt8),
    input.length ≤ 2 ^ 30 - 1 → ReturnsHex malloc input := by
  intro h
  obtain ⟨r, hr, hhex⟩ := h (fun _ => some fun _ => 0x78) [0xDE, 0xAD] (by decide)
  rw [tohex_eq _ _ (by decide)] at hr
  cases hr
  have hend := (hhex _ rfl).terminated
  rw [cell_behind] at hend
  exact absurd hend (by decide)

end Mikelibc.Hex
