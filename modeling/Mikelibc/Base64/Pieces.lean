import Mikelibc.Base64.RoundTrip
import Mikelibc.Base64.Sizes

/-! # Data that are encoded in pieces

Pieces of data that are encoded one by one, and the strings joined. Where a piece with padding is
not the last one, this is not the encoding of all the data, and the decoder, which takes off the
padding at the end of a string only, has zeros at the seams. -/
namespace Mikelibc.Base64
open CSem

/-- All pieces are of whole groups, but for the last that has anything in it. -/
def Aligned : List (List UInt8) → Prop
  | [] => True
  | piece :: pieces => (piece.length % 3 = 0 ∨ pieces.flatten = []) ∧ Aligned pieces

instance Aligned.decidable : ∀ pieces, Decidable (Aligned pieces)
  | [] => isTrue trivial
  | piece :: pieces =>
    have := Aligned.decidable pieces
    inferInstanceAs (Decidable ((piece.length % 3 = 0 ∨ pieces.flatten = []) ∧ Aligned pieces))

def joined (pieces : List (List UInt8)) : List UInt8 := (pieces.map encodeList).flatten

/-- The pieces with the zeros at their seams. -/
def seamed : List (List UInt8) → List UInt8
  | [] => []
  | piece :: pieces =>
    if pieces.flatten = [] then piece
    else piece ++ List.replicate (fill piece.length) 0 ++ seamed pieces

def EncodesTo (malloc : Nat → Bool) (data : List UInt8) (s : CString) : Prop :=
  ∃ n output, n.toNat = data.length ∧ mbase64Encode malloc data n = .ok output ∧
    output.cstring = .ok s

def DecodesTo (malloc : Nat → Bool) (s : CString) (data : List UInt8) : Prop :=
  ∃ output size, mbase64Decode malloc s = .ok (some (output, size)) ∧ size.toNat = data.length ∧
    output.Holds 0 data

/-! ## Strings that are joined -/

theorem decodeList_append {xs : List UInt8} (h4 : xs.length % 4 = 0) (ys : List UInt8) :
    decodeList (xs ++ ys) = decodeList xs ++ decodeList ys := by
  induction xs using decodeList.induct with
  | case1 a b c d rest ih =>
    simp only [List.length_cons] at h4
    rw [List.cons_append, List.cons_append, List.cons_append, List.cons_append, decodeList,
      decodeList, ih (by omega), List.append_assoc]
  | case2 xs hshort =>
    rcases xs with _ | ⟨a, _ | ⟨b, _ | ⟨c, _ | ⟨d, rest⟩⟩⟩⟩
    · rfl
    · simp at h4
    · simp at h4
    · simp at h4
    · exact absurd rfl (hshort a b c d rest)

theorem encodeList_append {xs : List UInt8} (h3 : xs.length % 3 = 0) (ys : List UInt8) :
    encodeList (xs ++ ys) = encodeList xs ++ encodeList ys := by
  induction xs using encodeList.induct with
  | case1 => rfl
  | case2 a => simp at h3
  | case3 a b => simp at h3
  | case4 a b c rest ih =>
    simp only [List.length_cons] at h3
    rw [List.cons_append, List.cons_append, List.cons_append, encodeList, encodeList,
      ih (by omega), List.append_assoc]

theorem encodeList_eq_nil {data : List UInt8} : encodeList data = [] ↔ data = [] := by
  rw [← List.length_eq_zero_iff, encodeList_length, ← List.length_eq_zero_iff]
  omega

theorem joined_cons (piece : List UInt8) (pieces : List (List UInt8)) :
    joined (piece :: pieces) = encodeList piece ++ joined pieces := rfl

theorem joined_length (pieces : List (List UInt8)) : (joined pieces).length % 4 = 0 := by
  induction pieces with
  | nil => rfl
  | cons piece pieces ih =>
    rw [joined_cons, List.length_append, encodeList_length]
    omega

theorem joined_eq_nil {pieces : List (List UInt8)} : joined pieces = [] ↔ pieces.flatten = [] := by
  simp [joined, List.flatten_eq_nil_iff, encodeList_eq_nil]

/-- What the decoder makes of it: the zeros that filled up the last group of a piece stay there. -/
theorem decodeList_joined (pieces : List (List UInt8)) : decodeList (joined pieces) =
    seamed pieces ++ List.replicate (paddingCount (joined pieces)) 0 := by
  induction pieces with
  | nil => rfl
  | cons piece pieces ih =>
    rw [joined_cons, seamed]
    by_cases hlast : pieces.flatten = []
    · rw [joined_eq_nil.mpr hlast, List.append_nil, if_pos hlast, decodeList_encodeList,
        paddingCount_encodeList]
    · have h4 := joined_length pieces
      have hpos := List.length_pos_of_ne_nil (mt joined_eq_nil.mp hlast)
      rw [if_neg hlast, decodeList_append (by rw [encodeList_length]; omega), ih,
        decodeList_encodeList, paddingCount_append _ (by omega), List.append_assoc _ (seamed _)]

/-! ## Pieces of whole groups -/

theorem fill_eq_zero {n : Nat} : fill n = 0 ↔ n % 3 = 0 := by
  unfold fill
  omega

theorem flatten_length_le (pieces : List (List UInt8)) :
    pieces.flatten.length ≤ (seamed pieces).length := by
  induction pieces with
  | nil => exact Nat.le_refl _
  | cons piece pieces ih =>
    rw [seamed, List.flatten_cons]
    split
    · next hlast => simp [hlast]
    · simp only [List.length_append]
      omega

/-- Without seams of zeros the pieces are aligned. -/
theorem aligned_of_length {pieces : List (List UInt8)}
    (h : (seamed pieces).length = pieces.flatten.length) : Aligned pieces := by
  induction pieces with
  | nil => trivial
  | cons piece pieces ih =>
    have hle := flatten_length_le pieces
    rw [seamed, List.flatten_cons] at h
    split at h
    · next hlast =>
      refine ⟨.inr hlast, ih (Nat.le_antisymm ?_ hle)⟩
      cases pieces with
      | nil => exact Nat.zero_le _
      | cons next rest =>
        -- nothing is left in any of them
        obtain ⟨hnext, hrest⟩ := List.append_eq_nil_iff.mp hlast
        rw [seamed, if_pos hrest, hnext]
        exact Nat.zero_le _
    · simp only [List.length_append, List.length_replicate] at h
      exact ⟨.inl (fill_eq_zero.mp (by omega)), ih (by omega)⟩

theorem Aligned.seamed_eq {pieces : List (List UInt8)} (h : Aligned pieces) :
    seamed pieces = pieces.flatten := by
  induction pieces with
  | nil => rfl
  | cons piece pieces ih =>
    rw [seamed, List.flatten_cons, ih h.2]
    split
    · next hlast => rw [hlast, List.append_nil]
    · next hmore =>
      rw [fill_eq_zero.mpr (h.1.resolve_right hmore), List.replicate_zero, List.append_nil]

theorem Aligned.encodeList_eq {pieces : List (List UInt8)} (h : Aligned pieces) :
    encodeList pieces.flatten = joined pieces := by
  induction pieces with
  | nil => rfl
  | cons piece pieces ih =>
    rw [joined_cons, List.flatten_cons]
    obtain h3 | hlast := h.1
    · rw [encodeList_append h3, ih h.2]
    · rw [hlast, joined_eq_nil.mpr hlast, List.append_nil, List.append_nil]

theorem encodeList_flatten_iff {pieces : List (List UInt8)} :
    joined pieces = encodeList pieces.flatten ↔ Aligned pieces := by
  refine ⟨fun h => aligned_of_length ?_, fun h => h.encodeList_eq.symm⟩
  have hdecoded := decodeList_joined pieces
  rw [h, decodeList_encodeList, paddingCount_encodeList] at hdecoded
  exact congrArg List.length (List.append_cancel_right hdecoded.symm)

/-! ## The two functions -/

variable {malloc : Nat → Bool} {data : List UInt8} {s : CString}

theorem encoded_cstring (hs : s.chars = encodeList data) :
    ((Block.alloc ((encodeList data).length + 1)).write 0 (encodeList data ++ [0])).cstring =
      .ok s := by
  rw [← hs]
  exact Block.cstring_of s (Block.holds_write _ _ _) (Nat.lt_succ_self _)

theorem EncodesTo.chars_eq (hm : ∀ n, malloc n = true) (h : EncodesTo malloc data s) :
    s.chars = encodeList data := by
  obtain ⟨n, output, hn, hencode, hs⟩ := h
  have hmax : 4 * ((data.length + 2) / 3) ≤ intMax := hn ▸ mbase64Encode_fits hencode
  have hlen := encodeList_length data
  let t : CString := ⟨encodeList data, encodeList_noNul data, by unfold intMax at hmax; omega⟩
  rw [mbase64Encode_eq hm hn hmax] at hencode
  cases hencode
  rw [encoded_cstring (s := t) rfl] at hs
  exact congrArg CString.chars (Outcome.ok.inj hs).symm

theorem encodesTo_iff (hm : ∀ n, malloc n = true) (hfits : s.chars.length ≤ intMax) :
    EncodesTo malloc data s ↔ s.chars = encodeList data := by
  refine ⟨EncodesTo.chars_eq hm, fun hs => ?_⟩
  have hmax : 4 * ((data.length + 2) / 3) ≤ intMax := by
    rw [← encodeList_length, ← hs]
    exact hfits
  have hsize : (UInt64.ofNat data.length).toNat = data.length := by
    rw [UInt64.toNat_ofNat', Nat.mod_eq_of_lt (by unfold intMax at hmax; omega)]
  exact ⟨_, _, hsize, mbase64Encode_eq hm hsize hmax, encoded_cstring hs⟩

theorem joined_texts (hm : ∀ n, malloc n = true) {pieces : List (List UInt8)}
    {texts : List CString} (htexts : List.Forall₂ (EncodesTo malloc) pieces texts) :
    (texts.map CString.chars).flatten = joined pieces := by
  induction htexts with
  | nil => rfl
  | cons hencodes _ ih => rw [List.map_cons, List.flatten_cons, hencodes.chars_eq hm, ih]; rfl

theorem decodesTo_joined_iff (hm : ∀ n, malloc n = true) {pieces : List (List UInt8)}
    (hs : s.chars = joined pieces) (hfits : s.chars.length ≤ intMax) :
    DecodesTo malloc s data ↔ data = seamed pieces := by
  have hlist := decodeList_joined pieces
  have hlen := decodeList_length s.chars
  have hdecode := mbase64Decode_eq hm (by rw [hs]; exact joined_length pieces) hfits
  have hsize : (UInt64.ofNat (decodeList s.chars).length -
      UInt64.ofNat (paddingCount s.chars)).toNat = (seamed pieces).length := by
    have hparts := congrArg List.length hlist
    rw [List.length_append, List.length_replicate, ← hs] at hparts
    unfold intMax at hfits
    rw [UInt64.toNat_sub, UInt64.toNat_ofNat', UInt64.toNat_ofNat']
    omega
  have hholds : ((Block.alloc (decodeList s.chars).length : Block UInt8 1).write 0
      (decodeList s.chars)).Holds 0 (seamed pieces) := by
    have h := Block.holds_write (Block.alloc (decodeList s.chars).length : Block UInt8 1) 0
      (decodeList s.chars)
    rw [hs, hlist] at h ⊢
    exact (Block.holds_append.mp h).1
  constructor
  · rintro ⟨output, size, hcall, hn, hdata⟩
    rw [hdecode] at hcall
    cases hcall
    rw [hsize] at hn
    exact hdata.unique hholds hn.symm
  · rintro rfl
    exact ⟨_, _, hdecode, hsize, hholds⟩

/-- **Encoding in pieces.** The joined encodings of some pieces are the encoding of all the data, and
decode to them, exactly if all pieces but the last are of whole groups; otherwise what they decode
to has zeros at the seams. -/
theorem pieces_encode_iff (hm : ∀ n, malloc n = true) {pieces : List (List UInt8)}
    {texts : List CString} (htexts : List.Forall₂ (EncodesTo malloc) pieces texts)
    (hs : s.chars = (texts.map CString.chars).flatten) (hfits : s.chars.length ≤ intMax) :
    (EncodesTo malloc pieces.flatten s ↔ Aligned pieces) ∧
      (DecodesTo malloc s pieces.flatten ↔ Aligned pieces) ∧ DecodesTo malloc s (seamed pieces) := by
  have hjoined : s.chars = joined pieces := hs.trans (joined_texts hm htexts)
  refine ⟨?_, ?_, ?_⟩
  · rw [encodesTo_iff hm hfits, hjoined, encodeList_flatten_iff]
  · rw [decodesTo_joined_iff hm hjoined hfits]
    exact ⟨fun h => aligned_of_length (congrArg List.length h.symm), fun h => h.seamed_eq.symm⟩
  · exact (decodesTo_joined_iff hm hjoined hfits).mpr rfl

theorem pieces_encode_two : EncodesTo (fun _ => true) [1, 2, 3, 4]
    ⟨['A', 'Q', 'I', 'D', 'B', 'A', '=', '='].map Char.toUInt8, by decide, by decide⟩ := by
  have hone : EncodesTo (fun _ => true) [1, 2, 3]
      ⟨['A', 'Q', 'I', 'D'].map Char.toUInt8, by decide, by decide⟩ :=
    (encodesTo_iff (fun _ => rfl) (by decide)).mpr (by decide)
  have htwo : EncodesTo (fun _ => true) [4]
      ⟨['B', 'A', '=', '='].map Char.toUInt8, by decide, by decide⟩ :=
    (encodesTo_iff (fun _ => rfl) (by decide)).mpr (by decide)
  exact (pieces_encode_iff (fun _ => rfl) (.cons hone (.cons htwo .nil)) rfl (by decide)).1.mpr
    (by decide)

end Mikelibc.Base64
