import Mikelibc.Base64.Loops

/-! # Sizes that do not fit an `int`

Both functions compute the size of their buffer in `size_t`, keep it in an `int` and
hand that back to `malloc`; their counters are `int` too. A run from which nothing
else can go wrong stays in its buffer and in `int` exactly when the counters can
reach the end, or when `malloc` refuses what is left of the size. -/
namespace Mikelibc.Base64
open CSem

variable {malloc : Nat → Bool}

def encodeRequest (n : UInt64) : Nat := (toSize (toInt (4 * ((n + 2) / 3)) + 1)).toNat

def decodeRequest (s : CString) : Nat := (toSize (toInt (3 * s.strlen / 4))).toNat

def encodeStart (n : UInt64) : EncodeVars := ⟨Block.alloc (encodeRequest n), 0, 0⟩

/-- `mbase64_encode` writes within its buffer and its counters stay within `int`, and so does
`remaining` in every round. -/
structure EncodeSafe (malloc : Nat → Bool) (data : List UInt8) (n : UInt64) : Prop where
  noFault : mbase64Encode malloc data n ≠ .fault
  remaining : malloc (encodeRequest n) = true → ∀ v, LoopReaches
    (fun v => return decide (v.i < n.toNat)) (encodeRound data n) (encodeStart n) v →
    v.i < n.toNat → n.toNat - v.i ≤ intMax

/-- `mbase64_decode` writes within its buffer and its counters stay within `int`. -/
def DecodeSafe (malloc : Nat → Bool) (s : CString) : Prop := mbase64Decode malloc s ≠ .fault

/-! ## Encoding -/

/-- `malloc` is asked once. -/
theorem mbase64Encode_malloc (data : List UInt8) (n : UInt64) :
    mbase64Encode malloc data n =
      if malloc (encodeRequest n) then mbase64Encode (fun _ => true) data n else .abort := by
  unfold mbase64Encode encodeRequest
  split
  · next h => simp only [Outcome.assert_of h]; rfl
  · next h => simp only [Outcome.assert_of_not h, Outcome.abort_bind]

theorem straight_takeOctets (data : List UInt8) (n : UInt64) (i : Nat) :
    (takeOctets data n i).Straight := by
  unfold takeOctets
  simp only
  split_ifs <;> simp

theorem straight_putPadding (output : Block UInt8 1) (j padding : Nat) :
    (putPadding output j padding).Straight := by
  unfold putPadding
  split_ifs <;> simp

theorem straight_encodeRound (data : List UInt8) (n : UInt64) (v : EncodeVars) :
    (encodeRound data n v).Straight := by
  simp [encodeRound, straight_takeOctets, straight_putPadding]

theorem straight_encodeLoop (data : List UInt8) (n : UInt64) (v : EncodeVars) :
    (encodeLoop data n (n.toNat + 1) v).Straight := by
  refine whileLoop_straight (fun v => n.toNat - v.i) (by simp)
    (fun v _ => straight_encodeRound data n v) (fun v u hc hround => ?_) _ v (by omega)
  have hi := (encodeRound_takes hround).1
  have hlt : v.i < n.toNat := by simpa using hc
  omega

theorem straight_mbase64Encode (data : List UInt8) (n : UInt64) :
    (mbase64Encode (fun _ => true) data n).Straight := by
  simp [mbase64Encode, Outcome.assert, straight_encodeLoop]

theorem encodeRound_counts {data : List UInt8} {n : UInt64} {v u : EncodeVars}
    (h : encodeRound data n v = .ok u) : u.i = v.i + 3 ∧ u.j = v.j + 4 ∧ u.j ≤ intMax := by
  obtain ⟨⟨orig, padding⟩, _, h⟩ := Outcome.bind_eq_ok.mp h
  iterate 12 obtain ⟨_, _, h⟩ := Outcome.bind_eq_ok.mp h
  obtain ⟨i, hi, h⟩ := Outcome.bind_eq_ok.mp h
  obtain ⟨j, hj, h⟩ := Outcome.bind_eq_ok.mp h
  cases h
  obtain ⟨_, rfl⟩ := intAdd_eq_ok.mp hi
  obtain ⟨hmax, rfl⟩ := intAdd_eq_ok.mp hj
  exact ⟨rfl, rfl, hmax⟩

/-- A call that returns has counted all characters in `j`. -/
theorem mbase64Encode_fits {data : List UInt8} {n : UInt64} {output : Block UInt8 1}
    (h : mbase64Encode malloc data n = .ok output) : 4 * ((n.toNat + 2) / 3) ≤ intMax := by
  obtain ⟨_, _, h⟩ := Outcome.bind_eq_ok.mp h
  obtain ⟨w, hloop, _⟩ := Outcome.bind_eq_ok.mp h
  have hinv := whileLoop_keeps (fun v : EncodeVars => 4 * v.i = 3 * v.j ∧ v.j ≤ intMax)
    (fun v u hv _ hround => by
      obtain ⟨hi, hj, hmax⟩ := encodeRound_counts hround
      obtain ⟨hcount, _⟩ := hv
      exact ⟨by omega, hmax⟩)
    _ _ _ ⟨rfl, Nat.zero_le _⟩ hloop
  have hend : ¬ w.i < n.toNat := by simpa using whileLoop_ends hloop
  obtain ⟨hcount, hmax⟩ := hinv
  omega

theorem encodeSafe_iff {data : List UInt8} {n : UInt64} (hn : n.toNat ≤ data.length) :
    EncodeSafe malloc data n ↔
      malloc (encodeRequest n) = false ∨ 4 * ((n.toNat + 2) / 3) ≤ intMax := by
  cases hm : malloc (encodeRequest n) with
  | false =>
    refine iff_of_true ⟨?_, fun hgrant => by rw [hm] at hgrant; cases hgrant⟩ (.inl rfl)
    rw [mbase64Encode_malloc, hm]
    exact nofun
  | true =>
    have hcall : mbase64Encode malloc data n = mbase64Encode (fun _ => true) data n := by
      rw [mbase64Encode_malloc, hm, if_pos rfl]
    simp only [Bool.true_eq_false, false_or]
    constructor
    · intro hsafe
      by_contra hfits
      refine hsafe.noFault ?_
      rw [hcall]
      exact (straight_mbase64Encode data n).fault_of fun output hok =>
        hfits (mbase64Encode_fits hok)
    · intro hfits
      have hmax : n.toNat ≤ intMax := by omega
      have hlen : (data.take n.toNat).length = n.toNat := by rw [List.length_take]; omega
      refine ⟨?_, fun _ v _ _ => by omega⟩
      rw [hcall, ← mbase64Encode_take data hmax,
        mbase64Encode_eq (fun _ => rfl) hlen.symm (by rw [hlen]; exact hfits)]
      exact nofun

/-! ## Decoding -/

theorem mbase64Decode_malloc {s : CString} (h4 : s.chars.length % 4 = 0) :
    mbase64Decode malloc s =
      if malloc (decodeRequest s) then mbase64Decode (fun _ => true) s else .abort := by
  have hmod := mt strlen_mod_four.mp (not_not.mpr h4)
  unfold mbase64Decode decodeRequest
  simp only [if_neg hmod]
  split
  · next h => simp only [Outcome.assert_of h]; rfl
  · next h => simp only [Outcome.assert_of_not h, Outcome.abort_bind]

theorem straight_decodeRound (s : CString) (v : DecodeVars) : (decodeRound s v).Straight := by
  simp [decodeRound, mapChar]

theorem decodeRound_counts {s : CString} {v u : DecodeVars} (h : decodeRound s v = .ok u) :
    u.i = v.i + 4 ∧ u.i ≤ intMax := by
  -- four characters, and three stores of which all but one have a place
  iterate 9 obtain ⟨_, _, h⟩ := Outcome.bind_eq_ok.mp h
  obtain ⟨i, hi, h⟩ := Outcome.bind_eq_ok.mp h
  obtain ⟨k, _, h⟩ := Outcome.bind_eq_ok.mp h
  cases h
  obtain ⟨hmax, rfl⟩ := intAdd_eq_ok.mp hi
  exact ⟨rfl, hmax⟩

theorem straight_decodeLoop (s : CString) (v : DecodeVars) :
    (decodeLoop s (s.strlen.toNat + 1) v).Straight := by
  refine whileLoop_straight (fun v => s.strlen.toNat - v.i) (by simp)
    (fun v _ => straight_decodeRound s v) (fun v u hc hround => ?_) _ v (by omega)
  have hi := (decodeRound_counts hround).1
  have hlt : v.i < s.strlen.toNat := by simpa using hc
  omega

theorem straight_mbase64Decode (s : CString) : (mbase64Decode (fun _ => true) s).Straight := by
  unfold mbase64Decode
  simp only
  split
  · exact Outcome.straight_ok _
  · rw [countPadding_eq, Outcome.assert_of trivial, Outcome.ok_bind, Outcome.ok_bind]
    exact Outcome.Straight.bind (straight_decodeLoop s _) fun _ _ => Outcome.straight_ok _

/-- A call that returns a buffer has counted all characters in `i`. -/
theorem mbase64Decode_fits {s : CString} {result : Option (Block UInt8 1 × UInt64)}
    (h4 : s.chars.length % 4 = 0) (h : mbase64Decode malloc s = .ok result) :
    s.chars.length ≤ intMax := by
  have hmod := mt strlen_mod_four.mp (not_not.mpr h4)
  simp only [mbase64Decode, if_neg hmod] at h
  obtain ⟨_, _, h⟩ := Outcome.bind_eq_ok.mp h
  obtain ⟨_, _, h⟩ := Outcome.bind_eq_ok.mp h
  obtain ⟨w, hloop, _⟩ := Outcome.bind_eq_ok.mp h
  have hinv := whileLoop_keeps (fun v : DecodeVars => v.i ≤ intMax)
    (fun v u _ _ hround => (decodeRound_counts hround).2) _ _ _ (Nat.zero_le _) hloop
  have hend : ¬ w.i < s.chars.length := by simpa using whileLoop_ends hloop
  omega

theorem decodeSafe_iff {s : CString} (h4 : s.chars.length % 4 = 0) :
    DecodeSafe malloc s ↔ malloc (decodeRequest s) = false ∨ s.chars.length ≤ intMax := by
  unfold DecodeSafe
  cases hm : malloc (decodeRequest s) with
  | false =>
    refine iff_of_true ?_ (.inl rfl)
    rw [mbase64Decode_malloc h4, hm]
    exact nofun
  | true =>
    rw [mbase64Decode_malloc h4, hm, if_pos rfl]
    simp only [Bool.true_eq_false, false_or]
    constructor
    · intro hsafe
      by_contra hfits
      exact hsafe ((straight_mbase64Decode s).fault_of fun result hok =>
        hfits (mbase64Decode_fits h4 hok))
    · intro hfits
      rw [mbase64Decode_eq (fun _ => rfl) h4 hfits]
      exact nofun

/-! ## Both -/

/-- **When the buffer arithmetic is safe.** Encoding: when `malloc` refuses the request, or an
`int` has room for the number of characters, rounded up to whole groups. Decoding: when it refuses,
or an `int` has room for the length of the string. -/
theorem base64_sizes_safe_iff (malloc : Nat → Bool) (data : List UInt8) (n : UInt64)
    (hn : n.toNat ≤ data.length) (s : CString) (h4 : s.chars.length % 4 = 0) :
    (EncodeSafe malloc data n ↔
      malloc (encodeRequest n) = false ∨ 4 * ((n.toNat + 2) / 3) ≤ intMax) ∧
    (DecodeSafe malloc s ↔ malloc (decodeRequest s) = false ∨ s.chars.length ≤ intMax) :=
  ⟨encodeSafe_iff hn, decodeSafe_iff h4⟩

theorem base64_sizes_safe_three :
    EncodeSafe (fun _ => true) [1, 2, 3] 3 ∧
      DecodeSafe (fun _ => true) ⟨['A', 'Q', 'I', 'D'].map Char.toUInt8, by decide, by decide⟩ :=
  have hsafe := base64_sizes_safe_iff (fun _ => true) [1, 2, 3] 3 (by decide)
    ⟨['A', 'Q', 'I', 'D'].map Char.toUInt8, by decide, by decide⟩ (by decide)
  ⟨hsafe.1.mpr (.inr (by decide)), hsafe.2.mpr (.inr (by decide))⟩

/-- For three quarters of 2^32 octets one byte is requested, and the first group does not fit. -/
theorem base64_size_wraps :
    ¬ ∀ (malloc : Nat → Bool) (data : List UInt8) (n : UInt64) (s : CString),
      n.toNat ≤ data.length → s.chars.length % 4 = 0 → EncodeSafe malloc data n ∧
        DecodeSafe malloc s := by
  intro h
  let s : CString := ⟨[], by decide, by decide⟩
  have hlen : (3221225472 : UInt64).toNat = 3221225472 := rfl
  have hdata : (3221225472 : UInt64).toNat ≤ (List.replicate 3221225472 (0 : UInt8)).length :=
    Nat.le_of_eq (hlen.trans List.length_replicate.symm)
  have hsafe := (h (fun _ => true) (List.replicate 3221225472 0) 3221225472 s hdata rfl).1
  have hfits := (encodeSafe_iff hdata).mp hsafe
  rw [hlen] at hfits
  revert hfits
  decide

end Mikelibc.Base64
