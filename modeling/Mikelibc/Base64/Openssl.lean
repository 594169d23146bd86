import Mikelibc.Base64.Canonical

/-! # The other decoder

`base64_decode_openssl` of `mutil.c` leaves the groups to `EVP_DecodeBlock`, which is
given, and trims the padding itself, under other guards and in other arithmetic than
`mbase64_decode`. On strings over the alphabet and `'='` they return the same. Log
messages are left out. -/
namespace Mikelibc.Base64
open CSem

/-! ## The code -/

/-- The bytes that are written to `data`; nothing can be written to `NULL`. -/
def writeTo (data : Option (Block UInt8 1)) (bytes : List UInt8) :
    Outcome (Option (Block UInt8 1)) :=
  match data with
  | none => do
    Outcome.require (bytes = [])
    return none
  | some data => do
    Outcome.require (bytes.length ≤ data.bytes)
    return some (data.write 0 bytes)

/-- A decrement of `bytes`: `if ((input_size > k) && (b64string[input_size-(k+1)] == '='))`. -/
def trimPad (b64string : CString) (k : UInt64) (bytes : Int) : Outcome Int :=
  if b64string.strlen > k then do
    let c ← b64string.get (b64string.strlen - (k + 1)).toNat
    return if c = padChar then bytes - 1 else bytes
  else return bytes

/-- The two decrements, for the last character and the one before it. -/
def trimPadding (b64string : CString) (bytes : Int) : Outcome Int := do
  let bytes ← trimPad b64string 0 bytes
  trimPad b64string 1 bytes

/-- `base64_decode_openssl`. `EVP_DecodeBlock` gets the number of characters as an `int`; it
returns -1, which is `none`, or the number of the bytes it has written. -/
def base64DecodeOpenssl (decodeBlock : List UInt8 → Option (List UInt8)) (malloc : Nat → Bool)
    (b64string : CString) : Outcome (Option (Block UInt8 1 × UInt64)) := do
  let inputSize := b64string.strlen
  let dataMem := (toSize (toInt (3 * inputSize / 4))).toNat
  let data := if malloc dataMem then some (Block.alloc dataMem) else none
  match decodeBlock (b64string.chars.take (toInt inputSize).toNat) with
  | none => return none
  | some bytes => do
    let data ← writeTo data bytes
    let outputSize ← trimPadding b64string bytes.length
    return data.map fun data => (data, toSize outputSize)

/-! ## What `EVP_DecodeBlock` does -/

/-- The six bits of a character; `'='` is read as zero bits. -/
def charBits (c : UInt8) : Nat := if c = padChar then 0 else value c

def groupBits (a b c d : UInt8) : Nat :=
  2 ^ 18 * charBits a + 2 ^ 12 * charBits b + 2 ^ 6 * charBits c + charBits d

def groupBytes : List UInt8 → List UInt8
  | a :: b :: c :: d :: rest =>
    UInt8.ofNat (groupBits a b c d / 2 ^ 16) :: UInt8.ofNat (groupBits a b c d / 2 ^ 8) ::
      UInt8.ofNat (groupBits a b c d) :: groupBytes rest
  | _ => []

/-- On the characters of the alphabet and `'='` it decodes group by group, and fails if a group is
not complete. -/
def DecodesGroups (decodeBlock : List UInt8 → Option (List UInt8)) : Prop :=
  ∀ cs, (∀ c ∈ cs, c ∈ b64Alphabet) →
    decodeBlock cs = if cs.length % 4 = 0 then some (groupBytes cs) else none

/-! ## It is what the loop computes -/

variable {malloc : Nat → Bool} {decodeBlock : List UInt8 → Option (List UInt8)} {s : CString}

/-- The reverse table has 0 for `'='`. -/
theorem sextet_charBits {c : UInt8} (h : c ∈ b64Alphabet) :
    (sextet c).toNat = charBits c ∧ charBits c < 64 := by
  rcases List.mem_append.mp h with hc | hc
  · obtain ⟨hvalue, hlt, _, hne⟩ := letter_facts hc
    rw [charBits, if_neg hne, ← hvalue]
    exact ⟨rfl, hlt⟩
  · rw [List.mem_singleton.mp hc]
    exact ⟨rfl, by decide⟩

theorem decodeGroup_groupBits {a b c d : UInt8} (ha : a ∈ b64Alphabet) (hb : b ∈ b64Alphabet)
    (hc : c ∈ b64Alphabet) (hd : d ∈ b64Alphabet) :
    decodeGroup a b c d = [UInt8.ofNat (groupBits a b c d / 2 ^ 16),
      UInt8.ofNat (groupBits a b c d / 2 ^ 8), UInt8.ofNat (groupBits a b c d)] := by
  obtain ⟨hone, ha⟩ := sextet_charBits ha
  obtain ⟨htwo, hb⟩ := sextet_charBits hb
  obtain ⟨hthree, hc⟩ := sextet_charBits hc
  obtain ⟨hfour, hd⟩ := sextet_charBits hd
  obtain ⟨f1, f2, f3⟩ := @convertFromB64_toNat ⟨sextet a, sextet b, sextet c, sextet d⟩
    (htwo ▸ hb) (hthree ▸ hc) (hfour ▸ hd)
  simp only [hone, htwo, hthree, hfour] at f1 f2 f3
  simp only [decodeGroup, groupBits, List.cons.injEq, and_true]
  refine ⟨?_, ?_, ?_⟩
  · rw [← UInt8.toNat_inj, f1, UInt8.toNat_ofNat']
    omega
  · rw [← UInt8.toNat_inj, f2, UInt8.toNat_ofNat']
    omega
  · rw [← UInt8.toNat_inj, f3, UInt8.toNat_ofNat']
    omega

theorem groupBytes_eq {cs : List UInt8} (h : ∀ c ∈ cs, c ∈ b64Alphabet) :
    groupBytes cs = decodeList cs := by
  induction cs using decodeList.induct with
  | case1 a b c d rest ih =>
    simp only [List.forall_mem_cons] at h
    obtain ⟨ha, hb, hc, hd, hrest⟩ := h
    rw [groupBytes, decodeList, decodeGroup_groupBits ha hb hc hd, ih hrest]
    rfl
  | case2 cs hshort =>
    rw [decodeList, groupBytes]
    · exact hshort
    · exact hshort

/-! ## The padding -/

theorem trimPad_eq {k : UInt64} (hk : k.toNat + 1 ≤ s.chars.length) (hmax : k.toNat < 2)
    (bytes : Int) : trimPad s k bytes = .ok
      (bytes - if s.chars[s.chars.length - (k.toNat + 1)]? = some padChar then 1 else 0) := by
  have hpos : s.strlen > k := by
    rw [gt_iff_lt, UInt64.lt_iff_toNat_lt, s.strlen_toNat]
    omega
  have hplace : (k + 1).toNat = k.toNat + 1 := by
    rw [UInt64.toNat_add, show (1 : UInt64).toNat = 1 from rfl]
    omega
  have hindex : (s.strlen - (k + 1)).toNat = s.chars.length - (k.toNat + 1) := by
    have hle : k + 1 ≤ s.strlen := by
      rw [UInt64.le_iff_toNat_le, hplace, s.strlen_toNat]
      exact hk
    rw [UInt64.toNat_sub_of_le _ _ hle, hplace, s.strlen_toNat]
  have hchar := List.getElem?_eq_getElem (l := s.chars)
    (show s.chars.length - (k.toNat + 1) < s.chars.length by omega)
  rw [trimPad, if_pos hpos, hindex, CString.get_of hchar, Outcome.ok_bind, Outcome.pure_eq, hchar]
  simp only [Option.some.injEq]
  split_ifs <;> simp

/-- With whole groups the guards are those of `mbase64_decode`. -/
theorem trimPadding_eq (h4 : s.chars.length % 4 = 0) (bytes : Int) :
    trimPadding s bytes = .ok (bytes - paddingCount s.chars) := by
  by_cases hnil : s.chars.length = 0
  · have hsize : s.strlen = 0 := UInt64.toNat_inj.mp (by rw [s.strlen_toNat, hnil]; rfl)
    simp [trimPadding, trimPad, hsize, paddingCount, hnil]
  · have hthree : 3 < s.chars.length := by omega
    rw [trimPadding, trimPad_eq (by rw [UInt64.toNat_zero]; omega) (by decide), Outcome.ok_bind,
      trimPad_eq (by rw [show (1 : UInt64).toNat = 1 from rfl]; omega) (by decide), paddingCount,
      if_pos hthree, UInt64.toNat_zero, show (1 : UInt64).toNat = 1 from rfl]
    split_ifs <;> simp
    omega

theorem paddingCount_le (cs : List UInt8) : paddingCount cs ≤ (decodeList cs).length := by
  rw [decodeList_length, paddingCount]
  split_ifs <;> omega

/-! ## The two decoders -/

/-- Both return `NULL`, or the same bytes with the same size, which is not negative and not more
than there are bytes. -/
def DecodersAgree (decodeBlock : List UInt8 → Option (List UInt8)) (malloc : Nat → Bool)
    (s : CString) : Prop :=
  ∃ r, mbase64Decode malloc s = .ok r ∧ base64DecodeOpenssl decodeBlock malloc s = .ok r ∧
    ∀ data size, r = some (data, size) → 0 ≤ toInt size ∧ size.toNat ≤ data.bytes

theorem take_strlen (hfits : s.chars.length ≤ intMax) :
    s.chars.take (toInt s.strlen).toNat = s.chars := by
  rw [CString.toInt_strlen hfits, Int.toNat_natCast, List.take_length]

theorem base64DecodeOpenssl_eq (hm : ∀ n, malloc n = true) (hdecode : DecodesGroups decodeBlock)
    (hs : ∀ c ∈ s.chars, c ∈ b64Alphabet) (h4 : s.chars.length % 4 = 0)
    (hfits : s.chars.length ≤ intMax) :
    base64DecodeOpenssl decodeBlock malloc s =
      .ok (some ((Block.alloc (decodeList s.chars).length).write 0 (decodeList s.chars),
        toSize ((decodeList s.chars).length - paddingCount s.chars))) := by
  have hlen := decodeList_length s.chars
  have hmem : (toSize (toInt (3 * s.strlen / 4))).toNat = (decodeList s.chars).length := by
    rw [outputBytes_eq h4 hfits]
    exact toSize_natCast (by unfold intMax at hfits; omega)
  have hwrite : writeTo (some (Block.alloc (decodeList s.chars).length)) (decodeList s.chars) =
      .ok (some ((Block.alloc (decodeList s.chars).length).write 0 (decodeList s.chars))) := by
    simp [writeTo, Block.alloc, Outcome.require]
  simp only [base64DecodeOpenssl, hmem, hm, if_true, take_strlen hfits, hdecode s.chars hs,
    if_pos h4, groupBytes_eq hs, hwrite, Outcome.ok_bind, trimPadding_eq h4]
  rfl

/-- **The two decoders agree** on every string over the alphabet and `'='`, wherever the padding
stands. -/
theorem decoders_agree (decodeBlock : List UInt8 → Option (List UInt8)) (malloc : Nat → Bool)
    (s : CString) (hm : ∀ n, malloc n = true) (hdecode : DecodesGroups decodeBlock)
    (hs : ∀ c ∈ s.chars, c ∈ b64Alphabet) (hfits : s.chars.length ≤ intMax) :
    DecodersAgree decodeBlock malloc s := by
  by_cases h4 : s.chars.length % 4 = 0
  · have hle := paddingCount_le s.chars
    have hlen := decodeList_length s.chars
    have hbytes : (UInt64.ofNat (decodeList s.chars).length -
        UInt64.ofNat (paddingCount s.chars)).toNat =
        (decodeList s.chars).length - paddingCount s.chars := by
      unfold intMax at hfits
      rw [UInt64.toNat_sub, UInt64.toNat_ofNat', UInt64.toNat_ofNat']
      omega
    have hsize : toSize ((decodeList s.chars).length - paddingCount s.chars) =
        UInt64.ofNat (decodeList s.chars).length - UInt64.ofNat (paddingCount s.chars) := by
      rw [← UInt64.toNat_inj, hbytes, ← Int.ofNat_sub hle]
      exact toSize_natCast (by unfold intMax at hfits; omega)
    refine ⟨_, mbase64Decode_eq hm h4 hfits, ?_, fun data size h => ?_⟩
    · rw [base64DecodeOpenssl_eq hm hdecode hs h4 hfits, hsize]
    · cases h
      rw [toInt_of_le (by unfold intMax at hfits ⊢; omega), hbytes]
      exact ⟨Int.natCast_nonneg _, Nat.sub_le _ _⟩
  · refine ⟨none, (mbase64Decode_null_iff s).mpr h4, ?_, nofun⟩
    simp only [base64DecodeOpenssl, take_strlen hfits, hdecode s.chars hs, if_neg h4,
      Outcome.pure_eq]

/-- `"A==="`, with a group decoder that does what is asked of it. -/
theorem decoders_agree_malformed : DecodersAgree
    (fun cs => if cs.length % 4 = 0 then some (groupBytes cs) else none) (fun _ => true)
    ⟨[65, 61, 61, 61], by decide, by decide⟩ :=
  decoders_agree (fun cs => if cs.length % 4 = 0 then some (groupBytes cs) else none)
    (fun _ => true) ⟨[65, 61, 61, 61], by decide, by decide⟩ (fun _ => rfl) (fun _ _ => rfl)
    (by decide +kernel) (by decide)

end Mikelibc.Base64
