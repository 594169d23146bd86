import Mikelibc.Base64.Loops

/-! # Decoding undoes encoding

The conversions of a group are read as arithmetic on numbers below 64 and below
256, where the round trip of a group is division with remainder. The rest is
about where the padding stands: an encoded string of any length decodes to the
data followed by as many zeros as it has padding characters. -/
namespace Mikelibc.Base64
open CSem

variable {malloc : Nat → Bool}

/-! ## One group -/

/-- Joining bits that do not overlap is addition. -/
theorem or_eq_add {a b k : Nat} (h : b < 2 ^ k) : a * 2 ^ k ||| b = a * 2 ^ k + b := by
  rw [Nat.mul_comm, Nat.two_pow_add_eq_or_of_lt h]

theorem and_mask_toNat (x : UInt32) : (x &&& mask).toUInt8.toNat = x.toNat % 64 := by
  rw [UInt32.toNat_toUInt8, UInt32.toNat_and, show mask.toNat = 2 ^ 6 - 1 from rfl,
    Nat.and_two_pow_sub_one_eq_mod]
  omega

theorem convertToB64_toNat (orig : OrigOctets) :
    (convertToB64 orig).one.toNat = orig.one.toNat / 4 ∧
    (convertToB64 orig).two.toNat = orig.one.toNat % 4 * 16 + orig.two.toNat / 16 ∧
    (convertToB64 orig).three.toNat = orig.two.toNat % 16 * 4 + orig.three.toNat / 64 ∧
    (convertToB64 orig).four.toNat = orig.three.toNat % 64 := by
  have ha := orig.one.toNat_lt
  have hb := orig.two.toNat_lt
  have hc := orig.three.toNat_lt
  simp only [convertToB64, and_mask_toNat, UInt32.toNat_or, UInt32.toNat_shiftLeft,
    UInt32.toNat_shiftRight, UInt8.toNat_toUInt32, Nat.shiftLeft_eq, Nat.shiftRight_eq_div_pow,
    UInt32.reduceToNat, Nat.reduceMod]
  refine ⟨by omega, ?_, ?_, trivial⟩
  · rw [Nat.mod_eq_of_lt (by omega : orig.one.toNat * 2 ^ 4 < 2 ^ 32),
      or_eq_add (by omega : orig.two.toNat / 2 ^ 4 < 2 ^ 4)]
    omega
  · rw [Nat.mod_eq_of_lt (by omega : orig.two.toNat * 2 ^ 2 < 2 ^ 32),
      or_eq_add (by omega : orig.three.toNat / 2 ^ 6 < 2 ^ 2)]
    omega

theorem convertFromB64_toNat {b64 : B64Block} (h2 : b64.two.toNat < 64) (h3 : b64.three.toNat < 64)
    (h4 : b64.four.toNat < 64) :
    (convertFromB64 b64).one.toNat = b64.one.toNat % 64 * 4 + b64.two.toNat / 16 ∧
    (convertFromB64 b64).two.toNat = b64.two.toNat % 16 * 16 + b64.three.toNat / 4 ∧
    (convertFromB64 b64).three.toNat = b64.three.toNat % 4 * 64 + b64.four.toNat := by
  have h1 := b64.one.toNat_lt
  simp only [convertFromB64, UInt32.toNat_toUInt8, UInt32.toNat_or, UInt32.toNat_shiftLeft,
    UInt32.toNat_shiftRight, UInt8.toNat_toUInt32, Nat.shiftLeft_eq, Nat.shiftRight_eq_div_pow,
    UInt32.reduceToNat, Nat.reduceMod]
  refine ⟨?_, ?_, ?_⟩
  · rw [show b64.one.toNat * 2 ^ 2 % 2 ^ 32 % 2 ^ 8 = b64.one.toNat % 64 * 2 ^ 2 by omega,
      or_eq_add (by omega : b64.two.toNat / 2 ^ 4 < 2 ^ 2)]
    omega
  · rw [show b64.two.toNat * 2 ^ 4 % 2 ^ 32 % 2 ^ 8 = b64.two.toNat % 16 * 2 ^ 4 by omega,
      or_eq_add (by omega : b64.three.toNat / 2 ^ 2 < 2 ^ 4)]
    omega
  · rw [show b64.three.toNat * 2 ^ 6 % 2 ^ 32 % 2 ^ 8 = b64.three.toNat % 4 * 2 ^ 6 by omega,
      or_eq_add (by omega : b64.four.toNat < 2 ^ 6)]
    omega

theorem convertFromB64_convertToB64 (orig : OrigOctets) :
    convertFromB64 (convertToB64 orig) = orig := by
  obtain ⟨h1, h2, h3, h4⟩ := convertToB64_lt orig
  obtain ⟨t1, t2, t3, t4⟩ := convertToB64_toNat orig
  obtain ⟨f1, f2, f3⟩ := convertFromB64_toNat h2 h3 h4
  have ha := orig.one.toNat_lt
  have hb := orig.two.toNat_lt
  have hc := orig.three.toNat_lt
  have e1 : (convertFromB64 (convertToB64 orig)).one = orig.one := UInt8.toNat_inj.mp (by omega)
  have e2 : (convertFromB64 (convertToB64 orig)).two = orig.two := UInt8.toNat_inj.mp (by omega)
  have e3 : (convertFromB64 (convertToB64 orig)).three = orig.three := UInt8.toNat_inj.mp (by omega)
  cases h : convertFromB64 (convertToB64 orig)
  cases orig
  simp_all

theorem sextet_letter {v : UInt8} (h : v.toNat < 64) : sextet (letter v) = v := by
  have hall : ∀ i : Fin 64, sextet (letter (UInt8.ofNat i.val)) = UInt8.ofNat i.val := by
    decide +kernel
  simpa using hall ⟨v.toNat, h⟩

theorem sextet_padChar : sextet padChar = 0 := by decide

theorem letter_ne {v : UInt8} (h : v.toNat < 64) : letter v ≠ padChar ∧ letter v ≠ 0 := by
  have hall : ∀ i : Fin 64,
      letter (UInt8.ofNat i.val) ≠ padChar ∧ letter (UInt8.ofNat i.val) ≠ 0 := by
    decide +kernel
  simpa using hall ⟨v.toNat, h⟩

/-- A group decodes to its octets when those that the padding stands for are zero. -/
theorem decodeList_encodeGroup (orig : OrigOctets) (padding : Nat)
    (hthree : padding ≠ 0 → orig.three = 0) (htwo : padding = 2 → orig.two = 0) (rest : List UInt8) :
    decodeList (encodeGroup orig padding ++ rest) =
      orig.one :: orig.two :: orig.three :: decodeList rest := by
  obtain ⟨h1, h2, h3, h4⟩ := convertToB64_lt orig
  obtain ⟨_, _, t3, t4⟩ := convertToB64_toNat orig
  have hlast : sextet (if padding = 0 then letter (convertToB64 orig).four else padChar) =
      (convertToB64 orig).four := by
    split
    · exact sextet_letter h4
    · next hp =>
      rw [hthree hp] at t4
      rw [sextet_padChar]
      exact (UInt8.toNat_inj.mp t4).symm
  have hthird : sextet (if padding = 2 then padChar else letter (convertToB64 orig).three) =
      (convertToB64 orig).three := by
    split
    · next hp =>
      rw [htwo hp, hthree (by omega)] at t3
      rw [sextet_padChar]
      exact (UInt8.toNat_inj.mp t3).symm
    · exact sextet_letter h3
  simp only [encodeGroup, List.cons_append, List.nil_append, decodeList, decodeGroup,
    sextet_letter h1, sextet_letter h2, hthird, hlast]
  rw [convertFromB64_convertToB64]

/-! ## Whole strings -/

/-- The octets missing from the last group. -/
def fill (n : Nat) : Nat := (3 - n % 3) % 3

theorem decodeList_encodeList (data : List UInt8) :
    decodeList (encodeList data) = data ++ List.replicate (fill data.length) 0 := by
  induction data using encodeList.induct with
  | case1 => rfl
  | case2 a =>
    have h := decodeList_encodeGroup ⟨a, 0, 0⟩ 2 (fun _ => rfl) (fun _ => rfl) []
    rw [List.append_nil] at h
    rw [encodeList, h]
    rfl
  | case3 a b =>
    have h := decodeList_encodeGroup ⟨a, b, 0⟩ 1 (fun _ => rfl) (by omega) []
    rw [List.append_nil] at h
    rw [encodeList, h]
    rfl
  | case4 a b c rest ih =>
    have hfill : fill (a :: b :: c :: rest).length = fill rest.length := by
      simp only [fill, List.length_cons]; omega
    rw [encodeList, decodeList_encodeGroup _ _ (by simp) (by simp), ih, hfill]
    rfl

/-- Only the last group counts. -/
theorem paddingCount_append (xs : List UInt8) {ys : List UInt8} (h : 3 < ys.length) :
    paddingCount (xs ++ ys) = paddingCount ys := by
  have hidx : ∀ k, 0 < k → k ≤ ys.length →
      (xs ++ ys)[(xs ++ ys).length - k]? = ys[ys.length - k]? := by
    intro k hpos hk
    rw [List.getElem?_append_right (by rw [List.length_append]; omega), List.length_append]
    congr 1
    omega
  unfold paddingCount
  rw [hidx 1 (by omega) (by omega), hidx 2 (by omega) (by omega), List.length_append, if_pos h,
    if_pos (by omega)]

theorem paddingCount_encodeGroup (orig : OrigOctets) {padding : Nat} (h : padding ≤ 2) :
    paddingCount (encodeGroup orig padding) = padding := by
  obtain ⟨_, _, h3, h4⟩ := convertToB64_lt orig
  have hthird := (letter_ne h3).1
  have hlast := (letter_ne h4).1
  rcases (by omega : padding = 0 ∨ padding = 1 ∨ padding = 2) with rfl | rfl | rfl <;>
    simp [paddingCount, encodeGroup, hthird, hlast]

theorem paddingCount_encodeList (data : List UInt8) :
    paddingCount (encodeList data) = fill data.length := by
  induction data using encodeList.induct with
  | case1 => rfl
  | case2 a => exact paddingCount_encodeGroup _ (by omega)
  | case3 a b => exact paddingCount_encodeGroup _ (by omega)
  | case4 a b c rest ih =>
    have hfill : fill (a :: b :: c :: rest).length = fill rest.length := by
      simp only [fill, List.length_cons]; omega
    rw [hfill, encodeList]
    by_cases hne : rest = []
    · subst hne
      rw [encodeList, List.append_nil]
      exact paddingCount_encodeGroup _ (by omega)
    · have hpos : 0 < rest.length := List.length_pos_iff.mpr hne
      rw [paddingCount_append _ (by rw [encodeList_length]; omega), ih]

theorem encodeGroup_noNul (orig : OrigOctets) (padding : Nat) : 0 ∉ encodeGroup orig padding := by
  obtain ⟨h1, h2, h3, h4⟩ := convertToB64_lt orig
  have hpad : padChar ≠ 0 := by decide
  simp only [encodeGroup, List.mem_cons, List.not_mem_nil, or_false, not_or]
  refine ⟨(letter_ne h1).2.symm, (letter_ne h2).2.symm, ?_, ?_⟩ <;> split
  · exact hpad.symm
  · exact (letter_ne h3).2.symm
  · exact (letter_ne h4).2.symm
  · exact hpad.symm

theorem encodeList_noNul (data : List UInt8) : 0 ∉ encodeList data := by
  induction data using encodeList.induct with
  | case1 => simp [encodeList]
  | case2 | case3 => exact encodeGroup_noNul _ _
  | case4 a b c rest ih =>
    rw [encodeList, List.mem_append, not_or]
    exact ⟨encodeGroup_noNul _ _, ih⟩

/-- Different data have different encodings. -/
theorem encodeList_injective {a b : List UInt8} (h : encodeList a = encodeList b) : a = b := by
  have hpadding : fill a.length = fill b.length := by
    rw [← paddingCount_encodeList, h, paddingCount_encodeList]
  have hdecoded := congrArg decodeList h
  rw [decodeList_encodeList, decodeList_encodeList, hpadding] at hdecoded
  exact List.append_cancel_right hdecoded

/-- **Decoding undoes encoding.** Data of every length that an `int` has room for is
encoded to a string that decodes to the same octets, and `*output_size` is their
number. -/
theorem mbase64Decode_mbase64Encode (hm : ∀ n, malloc n = true) (data : List UInt8) (n : UInt64)
    (hn : n.toNat = data.length) (hfits : 4 * ((data.length + 2) / 3) ≤ intMax) :
    ∃ encoded s decoded m, mbase64Encode malloc data n = .ok encoded ∧
      encoded.cstring = .ok s ∧ mbase64Decode malloc s = .ok (some (decoded, m)) ∧
      m = n ∧ decoded.Holds 0 data := by
  have hlen := encodeList_length data
  let s : CString := ⟨encodeList data, encodeList_noNul data, by unfold intMax at hfits; omega⟩
  have hcstring := Block.cstring_of s (Block.holds_write
    (Block.alloc ((encodeList data).length + 1)) 0 (encodeList data ++ [0])) (Nat.lt_succ_self _)
  have hdecode := mbase64Decode_eq hm (s := s) (by simp only [s, hlen]; omega)
    (by simp only [s]; omega)
  refine ⟨_, s, _, _, mbase64Encode_eq hm hn hfits, hcstring, hdecode, ?_, ?_⟩
  · -- three octets a group, less those that were filled up
    have hlist : (decodeList s.chars).length = data.length + fill data.length := by
      simp [s, decodeList_encodeList]
    have hpad : paddingCount s.chars = fill data.length := paddingCount_encodeList data
    rw [hlist, hpad, UInt64.ofNat_add, ← hn, UInt64.ofNat_toNat]
    exact UInt64.add_sub_cancel _ _
  · have hholds := Block.holds_write (Block.alloc (decodeList s.chars).length : Block UInt8 1) 0
      (decodeList s.chars)
    simp only [s, decodeList_encodeList] at hholds ⊢
    exact (Block.holds_append.mp hholds).1

theorem mbase64Decode_mbase64Encode_four :
    ∃ encoded s decoded m, mbase64Encode (fun _ => true) [0, 255, 16, 0] 4 = .ok encoded ∧
      encoded.cstring = .ok s ∧ mbase64Decode (fun _ => true) s = .ok (some (decoded, m)) ∧
      m = 4 ∧ decoded.Holds 0 [0, 255, 16, 0] :=
  mbase64Decode_mbase64Encode (fun _ => rfl) [0, 255, 16, 0] 4 rfl (by decide)

end Mikelibc.Base64
