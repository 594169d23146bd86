import Mikelibc.Base64.RoundTrip

/-! # The encoding of RFC 4648

A reference that knows nothing of octets in groups of three: the data as one string
of bits, most significant first, zeros up to a multiple of six, a character for each
six, `'='` up to a multiple of four. `mbase64_encode` computes it. -/
namespace Mikelibc.Base64
open CSem

variable {malloc : Nat → Bool}

/-! ## The reference -/

/-- `n` in `width` bits, most significant first. -/
def bigEndian (width n : Nat) : List Bool :=
  (List.range width).map fun i => n.testBit (width - 1 - i)

/-- The number with these bits, most significant first. -/
def ofBits (bits : List Bool) : Nat := bits.foldl (fun n b => 2 * n + b.toNat) 0

/-- How many are missing to a multiple of `k`. -/
def missing (k n : Nat) : Nat := (k - n % k) % k

def sixes : List Bool → List (List Bool)
  | a :: b :: c :: d :: e :: f :: rest => [a, b, c, d, e, f] :: sixes rest
  | _ => []

def rfcAlphabet : List UInt8 :=
  "ABCDEFGHIJKLMNOPQRSTUVWXYZabcdefghijklmnopqrstuvwxyz0123456789+/".toList.map Char.toUInt8

def rfcBits (data : List UInt8) : List Bool := data.flatMap fun b => bigEndian 8 b.toNat

def rfcChars (bits : List Bool) : List UInt8 :=
  (sixes (bits ++ List.replicate (missing 6 bits.length) false)).map fun g =>
    rfcAlphabet[ofBits g]?.getD 0

def rfcEncode (data : List UInt8) : List UInt8 :=
  let chars := rfcChars (rfcBits data)
  chars ++ List.replicate (missing 4 chars.length) '='.toUInt8

/-! ## It is what the loop computes -/

theorem rfcAlphabet_eq : rfcAlphabet = letters := by decide

/-- A group of bits and the value that `convert_to_b64` computes for it have one character. -/
theorem rfcAlphabet_letter {bits : List Bool} {v : UInt8} (hv : v.toNat < 64)
    (h : ofBits bits = v.toNat) : rfcAlphabet[ofBits bits]?.getD 0 = letter v := by
  rw [h, letter, b64Alphabet, List.getElem?_append_left (by simpa [letters] using hv),
    rfcAlphabet_eq]

theorem ofBits_six (a b c d e f : Bool) : ofBits [a, b, c, d, e, f] =
    32 * a.toNat + 16 * b.toNat + 8 * c.toNat + 4 * d.toNat + 2 * e.toNat + f.toNat := by
  simp only [ofBits, List.foldl_cons, List.foldl_nil]
  omega

theorem ofBits_octets (orig : OrigOctets) :
    let a := orig.one.toNat
    let b := orig.two.toNat
    let c := orig.three.toNat
    ofBits [a.testBit 7, a.testBit 6, a.testBit 5, a.testBit 4, a.testBit 3, a.testBit 2] =
      (convertToB64 orig).one.toNat ∧
    ofBits [a.testBit 1, a.testBit 0, b.testBit 7, b.testBit 6, b.testBit 5, b.testBit 4] =
      (convertToB64 orig).two.toNat ∧
    ofBits [b.testBit 3, b.testBit 2, b.testBit 1, b.testBit 0, c.testBit 7, c.testBit 6] =
      (convertToB64 orig).three.toNat ∧
    ofBits [c.testBit 5, c.testBit 4, c.testBit 3, c.testBit 2, c.testBit 1, c.testBit 0] =
      (convertToB64 orig).four.toNat := by
  obtain ⟨t1, t2, t3, t4⟩ := convertToB64_toNat orig
  have ha := orig.one.toNat_lt
  have hb := orig.two.toNat_lt
  have hc := orig.three.toNat_lt
  simp only [ofBits_six, Nat.toNat_testBit, t1, t2, t3, t4]
  refine ⟨?_, ?_, ?_, ?_⟩ <;> omega

theorem rfcBits_length (data : List UInt8) : (rfcBits data).length = 8 * data.length := by
  simp [rfcBits, bigEndian, Nat.mul_comm]

theorem missing_add {k m : Nat} (hm : m % k = 0) (n : Nat) : missing k (m + n) = missing k n := by
  rw [missing, missing, Nat.add_mod, hm, Nat.zero_add, Nat.mod_mod]

theorem rfcChars_group (a b c : UInt8) (rest : List UInt8) :
    rfcChars (rfcBits (a :: b :: c :: rest)) =
      encodeGroup ⟨a, b, c⟩ 0 ++ rfcChars (rfcBits rest) := by
  obtain ⟨h1, h2, h3, h4⟩ := convertToB64_lt ⟨a, b, c⟩
  obtain ⟨t1, t2, t3, t4⟩ := ofBits_octets ⟨a, b, c⟩
  have hbits : rfcBits (a :: b :: c :: rest) =
      bigEndian 8 a.toNat ++ (bigEndian 8 b.toNat ++ (bigEndian 8 c.toNat ++ rfcBits rest)) := by
    simp [rfcBits]
  have hlen : (rfcBits (a :: b :: c :: rest)).length = 24 + (rfcBits rest).length := by
    simp only [rfcBits_length, List.length_cons]
    omega
  rw [rfcChars, hlen, missing_add rfl, hbits]
  simp only [bigEndian, List.range, List.range.loop, List.map_cons, List.map_nil, List.cons_append,
    List.nil_append, sixes, Nat.reduceSub, rfcAlphabet_letter h1 t1, rfcAlphabet_letter h2 t2,
    rfcAlphabet_letter h3 t3, rfcAlphabet_letter h4 t4, encodeGroup, rfcChars]
  rfl

theorem rfcChars_one (a : UInt8) :
    rfcChars (rfcBits [a]) = [letter (convertToB64 ⟨a, 0, 0⟩).one,
      letter (convertToB64 ⟨a, 0, 0⟩).two] := by
  obtain ⟨h1, h2, _, _⟩ := convertToB64_lt ⟨a, 0, 0⟩
  obtain ⟨t1, t2, _, _⟩ := ofBits_octets ⟨a, 0, 0⟩
  simp only [UInt8.toNat_zero, Nat.zero_testBit] at t1 t2
  rw [rfcChars, rfcBits_length, show List.replicate (missing 6 (8 * [a].length)) false =
    [false, false, false, false] by simp [missing, List.replicate]]
  simp only [rfcBits, List.flatMap_cons, List.flatMap_nil, bigEndian, List.range, List.range.loop,
    List.map_cons, List.map_nil, List.cons_append, List.nil_append, Nat.reduceSub, sixes]
  rw [rfcAlphabet_letter h1 t1, rfcAlphabet_letter h2 t2]

theorem rfcChars_two (a b : UInt8) :
    rfcChars (rfcBits [a, b]) = [letter (convertToB64 ⟨a, b, 0⟩).one,
      letter (convertToB64 ⟨a, b, 0⟩).two, letter (convertToB64 ⟨a, b, 0⟩).three] := by
  obtain ⟨h1, h2, h3, _⟩ := convertToB64_lt ⟨a, b, 0⟩
  obtain ⟨t1, t2, t3, _⟩ := ofBits_octets ⟨a, b, 0⟩
  simp only [UInt8.toNat_zero, Nat.zero_testBit] at t1 t2 t3
  rw [rfcChars, rfcBits_length, show List.replicate (missing 6 (8 * [a, b].length)) false =
    [false, false] by simp [missing, List.replicate]]
  simp only [rfcBits, List.flatMap_cons, List.flatMap_nil, bigEndian, List.range, List.range.loop,
    List.map_cons, List.map_nil, List.cons_append, List.nil_append, Nat.reduceSub, sixes]
  rw [rfcAlphabet_letter h1 t1, rfcAlphabet_letter h2 t2, rfcAlphabet_letter h3 t3]

theorem rfcEncode_eq (data : List UInt8) : rfcEncode data = encodeList data := by
  induction data using encodeList.induct with
  | case1 => rfl
  | case2 a => rw [rfcEncode, rfcChars_one]; rfl
  | case3 a b => rw [rfcEncode, rfcChars_two]; rfl
  | case4 a b c rest ih =>
    rw [rfcEncode] at ih ⊢
    rw [rfcChars_group, List.length_append, encodeGroup_length, missing_add rfl, List.append_assoc,
      encodeList]
    exact congrArg _ ih

/-- **`mbase64_encode` computes the encoding of RFC 4648**: a terminated string of four characters
for every three octets or part of three (`4 * ⌈n / 3⌉`), for data of every length that an `int` has
room for. -/
theorem mbase64Encode_rfc (hm : ∀ n, malloc n = true) (data : List UInt8) (n : UInt64)
    (hn : n.toNat = data.length) (hfits : 4 * ((data.length + 2) / 3) ≤ intMax) :
    ∃ output s, mbase64Encode malloc data n = .ok output ∧ output.cstring = .ok s ∧
      s.chars.length = 4 * ((data.length + 2) / 3) ∧ s.chars = rfcEncode data := by
  have hlen := encodeList_length data
  let s : CString := ⟨encodeList data, encodeList_noNul data, by unfold intMax at hfits; omega⟩
  have hcstring := Block.cstring_of s (Block.holds_write
    (Block.alloc ((encodeList data).length + 1)) 0 (encodeList data ++ [0])) (Nat.lt_succ_self _)
  exact ⟨_, s, mbase64Encode_eq hm hn hfits, hcstring, hlen, (rfcEncode_eq data).symm⟩

/-- Four octets: `"AP8QAA=="`. -/
theorem mbase64Encode_rfc_four :
    ∃ output s, mbase64Encode (fun _ => true) [0, 255, 16, 0] 4 = .ok output ∧
      output.cstring = .ok s ∧ s.chars.length = 4 * ((4 + 2) / 3) ∧
      s.chars = rfcEncode [0, 255, 16, 0] :=
  mbase64Encode_rfc (fun _ => rfl) [0, 255, 16, 0] 4 rfl (by decide)

example : rfcEncode [0, 255, 16, 0] = "AP8QAA==".toList.map Char.toUInt8 := by decide

end Mikelibc.Base64
