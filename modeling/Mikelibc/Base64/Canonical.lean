import Mikelibc.Base64.Grammar

/-! # Canonical strings

The strings an encoder can have written: groups of four letters, the last one
possibly cut short with the unused bits zero. They are the values of `encodeList`,
so encoding undoes decoding on them. -/
namespace Mikelibc.Base64
open CSem

variable {malloc : Nat → Bool}

/-- The six bits a letter stands for. -/
def value (c : UInt8) : Nat := letters.idxOf c

/-- Groups of four letters; the last group may be `xy==`, the low four bits of `y` zero, or
`xyz=`, the low two bits of `z` zero. -/
inductive Canonical : List UInt8 → Prop
  | nil : Canonical []
  | group {a b c d : UInt8} {rest : List UInt8} : a ∈ letters → b ∈ letters → c ∈ letters →
      d ∈ letters → Canonical rest → Canonical (a :: b :: c :: d :: rest)
  | two {x y : UInt8} : x ∈ letters → y ∈ letters → value y % 16 = 0 →
      Canonical [x, y, padChar, padChar]
  | three {x y z : UInt8} : x ∈ letters → y ∈ letters → z ∈ letters → value z % 4 = 0 →
      Canonical [x, y, z, padChar]

def trailingPads (cs : List UInt8) : Nat := (cs.reverse.takeWhile fun c => c == padChar).length

/-! ## Letters and groups -/

/-- The reverse table has the place of each letter in the alphabet. -/
theorem letter_facts {c : UInt8} (hc : c ∈ letters) :
    (sextet c).toNat = value c ∧ (sextet c).toNat < 64 ∧ letter (sextet c) = c ∧ c ≠ padChar := by
  have hall : ∀ c ∈ letters, (sextet c).toNat = value c ∧ (sextet c).toNat < 64 ∧
      letter (sextet c) = c ∧ c ≠ padChar := by
    decide +kernel
  exact hall c hc

theorem convertToB64_convertFromB64 {b64 : B64Block} (h1 : b64.one.toNat < 64)
    (h2 : b64.two.toNat < 64) (h3 : b64.three.toNat < 64) (h4 : b64.four.toNat < 64) :
    convertToB64 (convertFromB64 b64) = b64 := by
  obtain ⟨f1, f2, f3⟩ := convertFromB64_toNat h2 h3 h4
  obtain ⟨t1, t2, t3, t4⟩ := convertToB64_toNat (convertFromB64 b64)
  have e1 : (convertToB64 (convertFromB64 b64)).one = b64.one := UInt8.toNat_inj.mp (by omega)
  have e2 : (convertToB64 (convertFromB64 b64)).two = b64.two := UInt8.toNat_inj.mp (by omega)
  have e3 : (convertToB64 (convertFromB64 b64)).three = b64.three := UInt8.toNat_inj.mp (by omega)
  have e4 : (convertToB64 (convertFromB64 b64)).four = b64.four := UInt8.toNat_inj.mp (by omega)
  cases h : convertToB64 (convertFromB64 b64)
  cases b64
  simp_all

/-- The encoding of what four values decode to: the values, but for the padding. -/
theorem encodeGroup_convertFromB64 {b64 : B64Block} (h1 : b64.one.toNat < 64)
    (h2 : b64.two.toNat < 64) (h3 : b64.three.toNat < 64) (h4 : b64.four.toNat < 64)
    (padding : Nat) :
    encodeGroup (convertFromB64 b64) padding = [letter b64.one, letter b64.two,
      if padding = 2 then padChar else letter b64.three,
      if padding = 0 then letter b64.four else padChar] := by
  rw [encodeGroup, convertToB64_convertFromB64 h1 h2 h3 h4]

/-- With the low bits zero there is no third octet. -/
theorem convertFromB64_three {b64 : B64Block} (h2 : b64.two.toNat < 64) (h3 : b64.three.toNat < 64)
    (hlow : b64.three.toNat % 4 = 0) (hfour : b64.four = 0) : (convertFromB64 b64).three = 0 := by
  have hzero : b64.four.toNat = 0 := by rw [hfour]; rfl
  obtain ⟨_, _, f3⟩ := convertFromB64_toNat h2 h3 (by omega)
  exact UInt8.toNat_inj.mp (by rw [f3, UInt8.toNat_zero]; omega)

/-- Nor a second one. -/
theorem convertFromB64_two {b64 : B64Block} (h2 : b64.two.toNat < 64)
    (hlow : b64.two.toNat % 16 = 0) (hthree : b64.three = 0) (hfour : b64.four = 0) :
    (convertFromB64 b64).two = 0 := by
  have hzero : b64.three.toNat = 0 := by rw [hthree]; rfl
  obtain ⟨_, f2, _⟩ := convertFromB64_toNat h2 (by omega : b64.three.toNat < 64)
    (by rw [hfour]; decide)
  exact UInt8.toNat_inj.mp (by rw [f2, UInt8.toNat_zero]; omega)

/-! ## They are the encoded strings -/

theorem encodeGroup_letters {a b c d : UInt8} (ha : a ∈ letters) (hb : b ∈ letters)
    (hc : c ∈ letters) (hd : d ∈ letters) :
    encodeGroup (convertFromB64 ⟨sextet a, sextet b, sextet c, sextet d⟩) 0 = [a, b, c, d] := by
  obtain ⟨_, la, ea, _⟩ := letter_facts ha
  obtain ⟨_, lb, eb, _⟩ := letter_facts hb
  obtain ⟨_, lc, ec, _⟩ := letter_facts hc
  obtain ⟨_, ld, ed, _⟩ := letter_facts hd
  rw [encodeGroup_convertFromB64 la lb lc ld]
  simp [ea, eb, ec, ed]

theorem origOctets_eta {o : OrigOctets} {b c : UInt8} (htwo : o.two = b) (hthree : o.three = c) :
    o = ⟨o.one, b, c⟩ := by
  rw [← htwo, ← hthree]

theorem zero_lt : (0 : UInt8).toNat < 64 := by decide

theorem encodeList_two {x y : UInt8} (hx : x ∈ letters) (hy : y ∈ letters)
    (hlow : value y % 16 = 0) : ∃ a, encodeList [a] = [x, y, padChar, padChar] := by
  obtain ⟨_, lx, ex, _⟩ := letter_facts hx
  obtain ⟨vy, ly, ey, _⟩ := letter_facts hy
  let b64 : B64Block := ⟨sextet x, sextet y, 0, 0⟩
  have htwo : (convertFromB64 b64).two = 0 := convertFromB64_two ly (by rw [vy]; exact hlow) rfl rfl
  have hthree : (convertFromB64 b64).three = 0 := convertFromB64_three ly zero_lt rfl rfl
  have hgroup := @encodeGroup_convertFromB64 b64 lx ly zero_lt zero_lt 2
  rw [origOctets_eta htwo hthree] at hgroup
  exact ⟨_, by rw [encodeList, hgroup]; simp [b64, ex, ey]⟩

theorem encodeList_three {x y z : UInt8} (hx : x ∈ letters) (hy : y ∈ letters) (hz : z ∈ letters)
    (hlow : value z % 4 = 0) : ∃ a b, encodeList [a, b] = [x, y, z, padChar] := by
  obtain ⟨_, lx, ex, _⟩ := letter_facts hx
  obtain ⟨_, ly, ey, _⟩ := letter_facts hy
  obtain ⟨vz, lz, ez, _⟩ := letter_facts hz
  let b64 : B64Block := ⟨sextet x, sextet y, sextet z, 0⟩
  have hthree : (convertFromB64 b64).three = 0 :=
    convertFromB64_three ly lz (by rw [vz]; exact hlow) rfl
  have hgroup := @encodeGroup_convertFromB64 b64 lx ly lz zero_lt 1
  rw [origOctets_eta rfl hthree] at hgroup
  exact ⟨_, _, by rw [encodeList, hgroup]; simp [b64, ex, ey, ez]⟩

/-- Behind a letter, the `'='` at the end are those of the rest. -/
theorem trailingPads_group (a b c : UInt8) {d : UInt8} (hd : d ≠ padChar) (rest : List UInt8) :
    trailingPads (a :: b :: c :: d :: rest) = trailingPads rest := by
  have hreverse : (a :: b :: c :: d :: rest).reverse = rest.reverse ++ [d, c, b, a] := by simp
  rw [trailingPads, trailingPads, hreverse, List.takeWhile_append]
  split
  · next hall => simp [hd, hall]
  · rfl

/-- **Canonical strings are encodings**, padded by as many `'='` as octets are missing. -/
theorem Canonical.encoded {cs : List UInt8} (h : Canonical cs) :
    ∃ data, encodeList data = cs ∧ trailingPads cs = fill data.length := by
  induction h with
  | nil => exact ⟨[], rfl, rfl⟩
  | @group a b c d rest ha hb hc hd _ ih =>
    obtain ⟨data, hdata, hpads⟩ := ih
    obtain ⟨_, _, _, hpad⟩ := letter_facts hd
    let orig := convertFromB64 ⟨sextet a, sextet b, sextet c, sextet d⟩
    refine ⟨orig.one :: orig.two :: orig.three :: data, ?_, ?_⟩
    · rw [encodeList, hdata, encodeGroup_letters ha hb hc hd]
      rfl
    · rw [trailingPads_group _ _ _ hpad, hpads]
      simp only [fill, List.length_cons]
      omega
  | two hx hy hlow =>
    obtain ⟨a, ha⟩ := encodeList_two hx hy hlow
    obtain ⟨_, _, _, hpad⟩ := letter_facts hy
    exact ⟨[a], ha, by simp [trailingPads, hpad, fill]⟩
  | three hx hy hz hlow =>
    obtain ⟨a, b, hab⟩ := encodeList_three hx hy hz hlow
    obtain ⟨_, _, _, hpad⟩ := letter_facts hz
    exact ⟨[a, b], hab, by simp [trailingPads, hpad, fill]⟩

/-- **Encoding undoes decoding.** A canonical string that an `int` has room for decodes to three
octets for four characters, less the padding; nothing is written past them, and they encode to the
string again. -/
theorem mbase64Encode_mbase64Decode (hm : ∀ n, malloc n = true) (s : CString)
    (hs : Canonical s.chars) (hfits : s.chars.length ≤ intMax) :
    ∃ decoded m, mbase64Decode malloc s = .ok (some (decoded, m)) ∧
      m.toNat = 3 * s.chars.length / 4 - trailingPads s.chars ∧
      (∀ i, (decoded.cell i).isSome → i < 3 * s.chars.length / 4) ∧
      ∃ data encoded, data.length = m.toNat ∧ decoded.Holds 0 data ∧
        mbase64Encode malloc data m = .ok encoded ∧ encoded.cstring = .ok s := by
  obtain ⟨data, hdata, hpads⟩ := hs.encoded
  have hlen : s.chars.length = 4 * ((data.length + 2) / 3) := by rw [← hdata, encodeList_length]
  have hpadding : paddingCount s.chars = fill data.length := by
    rw [← hdata, paddingCount_encodeList]
  have hlist : decodeList s.chars = data ++ List.replicate (fill data.length) 0 := by
    rw [← hdata, decodeList_encodeList]
  have hcount : (decodeList s.chars).length = data.length + fill data.length := by
    rw [hlist, List.length_append, List.length_replicate]
  have hmax : data.length + fill data.length < 2 ^ 64 := by
    unfold intMax at hfits
    unfold fill
    omega
  have hm' : UInt64.ofNat (decodeList s.chars).length - UInt64.ofNat (paddingCount s.chars) =
      UInt64.ofNat data.length := by
    rw [hcount, hpadding, UInt64.ofNat_add]
    exact UInt64.add_sub_cancel _ _
  have hmNat : (UInt64.ofNat data.length).toNat = data.length := by
    rw [UInt64.toNat_ofNat', Nat.mod_eq_of_lt (by omega)]
  refine ⟨_, _, mbase64Decode_eq hm (by omega) hfits, ?_, fun i hi => ?_, data, _, ?_, ?_,
    mbase64Encode_eq hm (by rw [hm', hmNat]) (by omega), ?_⟩
  · rw [hm', hmNat, hpads]
    unfold fill
    omega
  · by_contra hout
    have hbound : ¬ i < (decodeList s.chars).length := by rw [decodeList_length]; omega
    simp [Block.write, Block.alloc, hbound] at hi
  · rw [hm', hmNat]
  · have hholds := Block.holds_write (Block.alloc (decodeList s.chars).length : Block UInt8 1) 0
      (decodeList s.chars)
    simp only [hlist] at hholds ⊢
    exact (Block.holds_append.mp hholds).1
  · rw [hdata]
    exact Block.cstring_of s (Block.holds_write _ 0 _) (Nat.lt_succ_self _)

/-- `"AP8="` decodes to two octets, which encode to `"AP8="`. -/
theorem mbase64Encode_mbase64Decode_two :
    let s : CString := ⟨['A', 'P', '8', '='].map Char.toUInt8, by decide, by decide⟩
    ∃ decoded m, mbase64Decode (fun _ => true) s = .ok (some (decoded, m)) ∧
      m.toNat = 3 * s.chars.length / 4 - trailingPads s.chars ∧
      (∀ i, (decoded.cell i).isSome → i < 3 * s.chars.length / 4) ∧
      ∃ data encoded, data.length = m.toNat ∧ decoded.Holds 0 data ∧
        mbase64Encode (fun _ => true) data m = .ok encoded ∧ encoded.cstring = .ok s :=
  mbase64Encode_mbase64Decode (fun _ => rfl) _
    (.three (by decide) (by decide) (by decide) (by decide)) (by decide)

end Mikelibc.Base64
