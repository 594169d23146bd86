import Mikelibc.Base64.RoundTrip

/-! # What the decoder accepts

The grammar of RFC 4648, to which the header refers, and the strings
`mbase64_decode` turns down: those whose length is not a multiple of four, and no
others. Every encoded string is in the grammar. -/
namespace Mikelibc.Base64
open CSem

variable {malloc : Nat → Bool}

/-- Groups of four characters; all are letters, except that the last one or the
last two of the string may be `'='`. -/
def IsBase64 (cs : List UInt8) : Prop :=
  cs.length % 4 = 0 ∧ ∃ k ≤ 2, (∀ c ∈ cs.take (cs.length - k), c ∈ letters) ∧
    ∀ c ∈ cs.drop (cs.length - k), c = padChar

instance : DecidablePred IsBase64 := fun _ => inferInstanceAs (Decidable (_ ∧ _))

/-- The decoder returns `NULL` exactly for a length that is not a multiple of four,
whatever the characters and whatever `malloc` does. -/
theorem mbase64Decode_null_iff (s : CString) :
    mbase64Decode malloc s = .ok none ↔ s.chars.length % 4 ≠ 0 := by
  have hmod := @strlen_mod_four s
  unfold mbase64Decode
  constructor
  · intro h
    by_contra h4
    rw [if_neg fun hne => hmod.mp hne h4] at h
    obtain ⟨_, _, h⟩ := Outcome.bind_eq_ok.mp h
    obtain ⟨_, _, h⟩ := Outcome.bind_eq_ok.mp h
    obtain ⟨_, _, h⟩ := Outcome.bind_eq_ok.mp h
    cases h
  · intro h4
    rw [if_pos (hmod.mpr h4)]
    rfl

/-- **When a string outside the grammar is turned down**: when its length gives it
away. The characters and the place of the padding are never looked at. -/
theorem mbase64Decode_rejects_iff (s : CString) :
    (¬ IsBase64 s.chars → mbase64Decode malloc s = .ok none) ↔
      (IsBase64 s.chars ∨ s.chars.length % 4 ≠ 0) := by
  rw [mbase64Decode_null_iff]
  tauto

/-- `"A==="` has three padding characters and is accepted. -/
theorem mbase64Decode_accepts_malformed :
    ¬ ∀ s : CString, ¬ IsBase64 s.chars → mbase64Decode (fun _ => true) s = .ok none := by
  intro h
  let s : CString := ⟨['A', '=', '=', '='].map Char.toUInt8, by decide, by decide⟩
  exact (mbase64Decode_null_iff s).mp (h s (by decide)) (by decide)

/-! ## Encoded strings are in the grammar -/

theorem letter_mem {v : UInt8} (h : v.toNat < 64) : letter v ∈ letters := by
  have hall : ∀ i : Fin 64, letter (UInt8.ofNat i.val) ∈ letters := by decide +kernel
  simpa using hall ⟨v.toNat, h⟩

theorem isBase64_encodeGroup (orig : OrigOctets) {padding : Nat} (h : padding ≤ 2) :
    IsBase64 (encodeGroup orig padding) := by
  obtain ⟨h1, h2, h3, h4⟩ := convertToB64_lt orig
  refine ⟨by simp, padding, h, ?_⟩
  rcases (by omega : padding = 0 ∨ padding = 1 ∨ padding = 2) with rfl | rfl | rfl <;>
    simp [encodeGroup, letter_mem, h1, h2, h3, h4]

theorem IsBase64.append {xs ys : List UInt8} (hy : IsBase64 ys) (h4 : xs.length % 4 = 0)
    (hx : ∀ c ∈ xs, c ∈ letters) (hne : 4 ≤ ys.length) : IsBase64 (xs ++ ys) := by
  obtain ⟨hlen, k, hk, hletters, hpad⟩ := hy
  have hcut : (xs ++ ys).length - k = xs.length + (ys.length - k) := by
    rw [List.length_append]; omega
  refine ⟨by rw [List.length_append]; omega, k, hk, ?_, ?_⟩
  · rw [hcut, List.take_length_add_append]
    intro c hc
    rcases List.mem_append.mp hc with hc | hc
    · exact hx c hc
    · exact hletters c hc
  · rwa [hcut, List.drop_length_add_append]

/-- What the encoder returns, the grammar admits. -/
theorem isBase64_encodeList (data : List UInt8) : IsBase64 (encodeList data) := by
  induction data using encodeList.induct with
  | case1 => exact ⟨rfl, 0, by omega, by simp [encodeList], by simp [encodeList]⟩
  | case2 a => exact isBase64_encodeGroup _ (by omega)
  | case3 a b => exact isBase64_encodeGroup _ (by omega)
  | case4 a b c rest ih =>
    obtain ⟨h1, h2, h3, h4⟩ := convertToB64_lt ⟨a, b, c⟩
    rw [encodeList]
    by_cases hne : rest = []
    · subst hne
      rw [encodeList, List.append_nil]
      exact isBase64_encodeGroup _ (by omega)
    · have hpos : 0 < rest.length := List.length_pos_iff.mpr hne
      refine ih.append (by simp) ?_ (by rw [encodeList_length]; omega)
      simp [encodeGroup, letter_mem, h1, h2, h3, h4]

end Mikelibc.Base64
