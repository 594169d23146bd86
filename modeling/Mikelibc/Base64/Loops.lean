import Mikelibc.Base64.Code

/-! # What the loops compute

The two loops, run on data whose counters fit an `int`, write the values of two
functions on lists: `encodeList` (groups of three octets, the last one padded) and
`decodeList` (groups of four characters). Everything about the codec itself is
then a matter of these two functions. -/
namespace Mikelibc.Base64
open CSem

variable {malloc : Nat → Bool}

/-! ## Encoding -/

def letter (v : UInt8) : UInt8 := b64Alphabet[v.toNat]?.getD 0

def encodeGroup (orig : OrigOctets) (padding : Nat) : List UInt8 :=
  let b64 := convertToB64 orig
  [letter b64.one, letter b64.two, if padding = 2 then padChar else letter b64.three,
    if padding = 0 then letter b64.four else padChar]

def encodeList : List UInt8 → List UInt8
  | [] => []
  | [a] => encodeGroup ⟨a, 0, 0⟩ 2
  | [a, b] => encodeGroup ⟨a, b, 0⟩ 1
  | a :: b :: c :: rest => encodeGroup ⟨a, b, c⟩ 0 ++ encodeList rest

/-- The octets of the first group, filled up with zeros, and its padding. -/
def firstGroup : List UInt8 → OrigOctets × Nat
  | a :: b :: c :: _ => (⟨a, b, c⟩, 0)
  | [a, b] => (⟨a, b, 0⟩, 1)
  | [a] => (⟨a, 0, 0⟩, 2)
  | [] => (⟨0, 0, 0⟩, 0)

theorem encodeList_group {data : List UInt8} (h : data ≠ []) :
    encodeList data =
      encodeGroup (firstGroup data).1 (firstGroup data).2 ++ encodeList (data.drop 3) := by
  match data, h with
  | [a], _ | [a, b], _ => simp [encodeList, firstGroup]
  | a :: b :: c :: rest, _ => simp [encodeList, firstGroup]

theorem firstGroup_padding (data : List UInt8) : (firstGroup data).2 ≤ 2 := by
  unfold firstGroup
  split <;> simp

@[simp] theorem encodeGroup_length (orig : OrigOctets) (padding : Nat) :
    (encodeGroup orig padding).length = 4 := rfl

theorem encodeList_length (data : List UInt8) :
    (encodeList data).length = 4 * ((data.length + 2) / 3) := by
  induction data using encodeList.induct with
  | case1 => rfl
  | case2 | case3 => simp [encodeList]
  | case4 a b c rest ih =>
    simp only [encodeList, List.length_append, encodeGroup_length, ih, List.length_cons]
    omega

theorem and_mask_lt (x : UInt32) : (x &&& mask).toUInt8.toNat < 64 := by
  have h : (x &&& mask).toNat ≤ 63 := by
    rw [UInt32.toNat_and]; exact Nat.and_le_right
  rw [UInt32.toNat_toUInt8]
  omega

theorem convertToB64_lt (orig : OrigOctets) :
    (convertToB64 orig).one.toNat < 64 ∧ (convertToB64 orig).two.toNat < 64 ∧
    (convertToB64 orig).three.toNat < 64 ∧ (convertToB64 orig).four.toNat < 64 :=
  ⟨and_mask_lt _, and_mask_lt _, and_mask_lt _, and_mask_lt _⟩

theorem readAt_alphabet {v : UInt8} (h : v.toNat < 64) :
    readAt b64Alphabet v.toNat = .ok (letter v) := by
  have hlen : v.toNat < b64Alphabet.length := Nat.lt_trans h (by decide)
  rw [readAt_of (List.getElem?_eq_getElem hlen), letter, List.getElem?_eq_getElem hlen,
    Option.getD_some]

/-- The code takes the first group of what is left of the data. -/
theorem takeOctets_eq {pre rest : List UInt8} {n : UInt64} (hne : rest ≠ [])
    (hn : n.toNat = (pre ++ rest).length) (hmax : (pre ++ rest).length ≤ intMax) :
    takeOctets (pre ++ rest) n pre.length = .ok (firstGroup rest) := by
  rw [List.length_append] at hn hmax
  have hsub : (n - UInt64.ofNat pre.length).toNat = rest.length := by
    rw [UInt64.toNat_sub, UInt64.toNat_ofNat']
    unfold intMax at hmax
    omega
  have hremaining : toInt (n - UInt64.ofNat pre.length) = rest.length := by
    rw [toInt_of_le (by omega), hsub]
  have hread : ∀ {k x}, rest[k]? = some x → readAt (pre ++ rest) (pre.length + k) = .ok x := by
    intro k x hk
    apply readAt_of
    rw [List.getElem?_append_right (by omega), Nat.add_sub_cancel_left, hk]
  unfold takeOctets
  rw [hremaining]
  rcases rest with _ | ⟨a, _ | ⟨b, _ | ⟨c, rest⟩⟩⟩
  · exact absurd rfl hne
  · have h0 := hread (k := 0) rfl
    simp_all [firstGroup]
  · have h0 := hread (k := 0) rfl
    simp only [List.length_cons, List.length_nil] at hmax
    simp_all [firstGroup, hread (k := 1) rfl, intAdd_of (show pre.length + 1 ≤ intMax by omega)]
  · have hthree : (((a :: b :: c :: rest).length : Nat) : Int) ≥ 3 := by
      simp only [List.length_cons]; omega
    have h0 := hread (k := 0) rfl
    simp only [List.length_cons] at hmax
    rw [if_pos hthree]
    simp_all [firstGroup, hread (k := 1) rfl, hread (k := 2) rfl,
      intAdd_of (show pre.length + 1 ≤ intMax by omega),
      intAdd_of (show pre.length + 2 ≤ intMax by omega)]

theorem storeGroup_eq {output : Block UInt8 1} {j : Nat} (w x y z : UInt8)
    (hfit : j + 3 < output.bytes) (hmax : j + 3 ≤ intMax) (k : Block UInt8 1 → Outcome EncodeVars) :
    (do
      let output ← output.store j w
      let output ← output.store (← intAdd j 1) x
      let output ← output.store (← intAdd j 2) y
      let output ← output.store (← intAdd j 3) z
      k output) = k (output.write j [w, x, y, z]) := by
  have h1 := Block.store_write output j [w] x (by simp [Block.Fits]; omega)
  have h2 := Block.store_write output j [w, x] y (by simp [Block.Fits]; omega)
  have h3 := Block.store_write output j [w, x, y] z (by simp [Block.Fits]; omega)
  simp only [List.length_cons, List.length_nil, List.cons_append, List.nil_append,
    Nat.zero_add] at h1 h2 h3
  simp only [Block.store_write_one w (show output.Fits j by unfold Block.Fits; omega),
    intAdd_of (show j + 1 ≤ intMax by omega), intAdd_of (show j + 2 ≤ intMax by omega),
    intAdd_of hmax, Outcome.ok_bind, h1, h2, h3]

theorem putPadding_eq {output : Block UInt8 1} {j padding : Nat} (w x y z : UInt8)
    (hp : padding ≤ 2) (hfit : j + 3 < output.bytes) (hmax : j + 3 ≤ intMax) :
    putPadding (output.write j [w, x, y, z]) j padding = .ok (output.write j
      [w, x, if padding = 2 then padChar else y, if padding = 0 then z else padChar]) := by
  have hset : ∀ {i : Nat} {xs : List UInt8}, i < xs.length → i ≤ 3 →
      (output.write j xs).store (j + i) padChar = .ok (output.write j (xs.set i padChar)) :=
    fun hi h3 => Block.store_write_set padChar hi (by unfold Block.Fits; omega)
  have h2 : intAdd j 2 = .ok (j + 2) := intAdd_of (by omega)
  rcases (by omega : padding = 0 ∨ padding = 1 ∨ padding = 2) with rfl | rfl | rfl
  · simp [putPadding]
  · simp [putPadding, intAdd_of hmax, hset]
  · simp [putPadding, intAdd_of hmax, h2, hset]

theorem encodeRound_eq {pre rest : List UInt8} {n : UInt64} {v : EncodeVars} (hne : rest ≠ [])
    (hn : n.toNat = (pre ++ rest).length) (hmax : (pre ++ rest).length + 3 ≤ intMax)
    (hi : v.i = pre.length) (hfit : v.j + 3 < v.output.bytes) (hj : v.j + 4 ≤ intMax) :
    encodeRound (pre ++ rest) n v = .ok {
      output := v.output.write v.j (encodeGroup (firstGroup rest).1 (firstGroup rest).2)
      i := v.i + 3
      j := v.j + 4 } := by
  have htake := takeOctets_eq hne hn (by omega)
  rw [← hi] at htake
  have hi3 : v.i + 3 ≤ intMax := by rw [hi]; rw [List.length_append] at hmax; omega
  obtain ⟨h1, h2, h3, h4⟩ := convertToB64_lt (firstGroup rest).1
  simp only [encodeRound, htake, Outcome.ok_bind, readAt_alphabet h1, readAt_alphabet h2,
    readAt_alphabet h3, readAt_alphabet h4]
  rw [storeGroup_eq _ _ _ _ hfit (by omega),
    putPadding_eq _ _ _ _ (firstGroup_padding rest) hfit (by omega)]
  simp only [Outcome.ok_bind, intAdd_of hi3, intAdd_of hj, Outcome.pure_eq, encodeGroup]

/-- The loop of `mbase64_encode` stores the encoding of what is left of the data.
Past a short last group `i` is beyond the end of the data. -/
theorem encodeLoop_eq {n : UInt64} :
    ∀ (fuel : Nat) (pre rest : List UInt8) (v : EncodeVars), rest.length < fuel →
      n.toNat = (pre ++ rest).length → (pre ++ rest).length + 3 ≤ intMax →
      (v.i = pre.length ∨ rest = [] ∧ pre.length ≤ v.i) →
      v.j + (encodeList rest).length < v.output.bytes →
      v.j + (encodeList rest).length ≤ intMax →
      ∃ i, encodeLoop (pre ++ rest) n fuel v =
        .ok { output := v.output.write v.j (encodeList rest), i := i,
              j := v.j + (encodeList rest).length } := by
  intro fuel
  induction fuel with
  | zero => intro pre rest v hf; omega
  | succ fuel ih =>
    intro pre rest v hf hn hmax hi hfit hj
    by_cases hne : rest = []
    · subst hne
      have hexit : ¬ v.i < n.toNat := by
        rw [hn, List.append_nil]
        rcases hi with hi | ⟨_, hi⟩ <;> omega
      exact ⟨v.i, by rw [encodeLoop, whileLoop_exit (by simp [hexit])]; simp [encodeList]⟩
    · have hi : v.i = pre.length := by simpa [hne] using hi
      have hpos : 0 < rest.length := List.length_pos_iff.mpr hne
      rw [encodeList_group hne, List.length_append, encodeGroup_length] at hfit hj
      have hcond : v.i < n.toNat := by rw [hn, List.length_append]; omega
      have hsplit : pre ++ rest = (pre ++ rest.take 3) ++ rest.drop 3 := by simp
      obtain ⟨i, hrec⟩ := ih (pre ++ rest.take 3) (rest.drop 3)
        { output := v.output.write v.j (encodeGroup (firstGroup rest).1 (firstGroup rest).2)
          i := v.i + 3, j := v.j + 4 }
        (by rw [List.length_drop]; omega) (by rw [← hsplit, hn]) (by rw [← hsplit]; exact hmax)
        (by
          rw [List.length_append, List.length_take, List.drop_eq_nil_iff]
          simp only
          omega)
        (by simp only [Block.write_bytes]; omega) (by simp only; omega)
      refine ⟨i, ?_⟩
      rw [encodeLoop, whileLoop_round (by simp [hcond])
        (encodeRound_eq hne hn hmax hi (by omega) (by omega))]
      rw [← hsplit] at hrec
      rw [← encodeLoop, hrec, encodeList_group hne, Block.write_append, List.length_append,
        encodeGroup_length, Nat.add_assoc]

/-- **What `mbase64_encode` returns**: the encoding and its terminator, in a block of
just their size. -/
theorem mbase64Encode_eq (hm : ∀ n, malloc n = true) {data : List UInt8} {n : UInt64}
    (hn : n.toNat = data.length) (hfits : 4 * ((data.length + 2) / 3) ≤ intMax) :
    mbase64Encode malloc data n =
      .ok ((Block.alloc ((encodeList data).length + 1)).write 0 (encodeList data ++ [0])) := by
  have hlen := encodeList_length data
  have hmax : data.length + 3 ≤ intMax := by unfold intMax at hfits ⊢; omega
  have hsize : (4 * ((n + 2) / 3)).toNat = (encodeList data).length := by
    unfold intMax at hfits hmax
    rw [hlen, UInt64.toNat_mul, UInt64.toNat_div, UInt64.toNat_add, hn,
      show (2 : UInt64).toNat = 2 from rfl, show (3 : UInt64).toNat = 3 from rfl,
      show (4 : UInt64).toNat = 4 from rfl]
    omega
  have houtput : (toSize (toInt (4 * ((n + 2) / 3)) + 1)).toNat = (encodeList data).length + 1 := by
    rw [toInt_of_le (by omega), hsize]
    exact_mod_cast toSize_natCast (n := (encodeList data).length + 1)
      (by unfold intMax at hfits; omega)
  obtain ⟨i, hloop⟩ := encodeLoop_eq (n.toNat + 1) [] data
    { output := Block.alloc ((encodeList data).length + 1), i := 0, j := 0 }
    (by omega) hn hmax (.inl rfl) (by simp [Block.alloc]) (by simp only; omega)
  let block : Block UInt8 1 := Block.alloc ((encodeList data).length + 1)
  have hend := Block.store_write block 0 (encodeList data) 0
    (by simp [block, Block.Fits, Block.alloc])
  simp only [List.nil_append] at hloop
  simp only [mbase64Encode, Outcome.assert_of (hm _), Outcome.ok_bind, houtput, hloop]
  exact hend

/-! ### Data longer than the size -/

theorem readAt_eq_ok {α : Type} {xs : List α} {i : Nat} {x : α} :
    readAt xs i = .ok x ↔ xs[i]? = some x := by
  unfold readAt
  cases xs[i]? <;> simp

theorem readAt_take {xs : List UInt8} {i n : Nat} (h : i < n) : readAt (xs.take n) i = readAt xs i := by
  simp only [readAt, List.getElem?_take_of_lt h]

theorem toInt_remaining {n : UInt64} {i : Nat} (hi : i ≤ n.toNat) (hn : n.toNat - i ≤ intMax) :
    toInt (n - UInt64.ofNat i) = ((n.toNat - i : Nat) : Int) := by
  have hlt := n.toNat_lt
  have hsub : (n - UInt64.ofNat i).toNat = n.toNat - i := by
    rw [UInt64.toNat_sub, UInt64.toNat_ofNat', Nat.mod_eq_of_lt (show i < 2 ^ 64 by omega)]
    omega
  rw [toInt_of_le (by omega), hsub]

/-- Only octets before the size are looked at. -/
theorem takeOctets_take {data : List UInt8} {n : UInt64} {i : Nat} (hi : i < n.toNat)
    (hn : n.toNat ≤ intMax) : takeOctets (data.take n.toNat) n i = takeOctets data n i := by
  have hadd : ∀ {k}, i + k < n.toNat → intAdd i k = .ok (i + k) := fun hk => intAdd_of (by omega)
  have hread : ∀ {k}, i + k < n.toNat → readAt (data.take n.toNat) (i + k) = readAt data (i + k) :=
    fun hk => readAt_take hk
  have h0 : readAt (data.take n.toNat) i = readAt data i := readAt_take hi
  unfold takeOctets
  rw [toInt_remaining (by omega) (by omega)]
  by_cases h3 : ((n.toNat - i : Nat) : Int) ≥ 3
  · have h1 : i + 1 < n.toNat := by omega
    have h2 : i + 2 < n.toNat := by omega
    simp only [if_pos h3, hadd h1, hadd h2, Outcome.ok_bind, h0, hread h1, hread h2]
  · by_cases h2 : ((n.toNat - i : Nat) : Int) = 2
    · have h1 : i + 1 < n.toNat := by omega
      simp only [if_neg h3, if_pos h2, hadd h1, Outcome.ok_bind, h0, hread h1]
    · simp only [if_neg h3, if_neg h2, h0]

theorem mbase64Encode_take (data : List UInt8) {n : UInt64} (hn : n.toNat ≤ intMax) :
    mbase64Encode malloc (data.take n.toNat) n = mbase64Encode malloc data n := by
  have hloop : ∀ fuel v, encodeLoop (data.take n.toNat) n fuel v = encodeLoop data n fuel v := by
    refine whileLoop_congr fun v hv => ?_
    have hi : v.i < n.toNat := by simpa using hv
    simp only [encodeRound, takeOctets_take hi hn]
  simp only [mbase64Encode, hloop]

/-- The last octets before the size are looked at. -/
theorem takeOctets_last {data : List UInt8} {n : UInt64} {i : Nat} {orig : OrigOctets × Nat}
    (hi : i < n.toNat) (hlast : n.toNat ≤ i + 3) (h : takeOctets data n i = .ok orig) :
    n.toNat ≤ data.length := by
  have hin : ∀ {k x}, readAt data k = .ok x → k < data.length := fun hk =>
    (List.getElem?_eq_some_iff.mp (readAt_eq_ok.mp hk)).1
  unfold takeOctets at h
  rw [toInt_remaining (by omega) (by unfold intMax; omega)] at h
  by_cases h3 : ((n.toNat - i : Nat) : Int) ≥ 3
  · simp only [if_pos h3] at h
    obtain ⟨_, _, h⟩ := Outcome.bind_eq_ok.mp h
    obtain ⟨_, _, h⟩ := Outcome.bind_eq_ok.mp h
    obtain ⟨_, _, h⟩ := Outcome.bind_eq_ok.mp h
    obtain ⟨k, hk, h⟩ := Outcome.bind_eq_ok.mp h
    obtain ⟨_, hread, _⟩ := Outcome.bind_eq_ok.mp h
    have hlt := hin hread
    have hadd := (intAdd_eq_ok.mp hk).2
    omega
  · by_cases h2 : ((n.toNat - i : Nat) : Int) = 2
    · simp only [if_neg h3, if_pos h2] at h
      obtain ⟨_, _, h⟩ := Outcome.bind_eq_ok.mp h
      obtain ⟨k, hk, h⟩ := Outcome.bind_eq_ok.mp h
      obtain ⟨_, hread, _⟩ := Outcome.bind_eq_ok.mp h
      have hlt := hin hread
      have hadd := (intAdd_eq_ok.mp hk).2
      omega
    · simp only [if_neg h3, if_neg h2] at h
      obtain ⟨_, hread, _⟩ := Outcome.bind_eq_ok.mp h
      have hlt := hin hread
      omega

/-- A round has taken the octets at `i`, and goes three on. -/
theorem encodeRound_takes {data : List UInt8} {n : UInt64} {v u : EncodeVars}
    (h : encodeRound data n v = .ok u) : u.i = v.i + 3 ∧ ∃ orig, takeOctets data n v.i = .ok orig := by
  obtain ⟨⟨orig, padding⟩, htake, h⟩ := Outcome.bind_eq_ok.mp h
  -- four characters, each with its store and all but one with a place, and the padding
  iterate 12 obtain ⟨_, _, h⟩ := Outcome.bind_eq_ok.mp h
  obtain ⟨i, hi, h⟩ := Outcome.bind_eq_ok.mp h
  obtain ⟨j, _, h⟩ := Outcome.bind_eq_ok.mp h
  cases h
  exact ⟨(intAdd_eq_ok.mp hi).2, (orig, padding), htake⟩

/-- `mbase64_encode` returns only if the data have as many octets as the size says. -/
theorem mbase64Encode_reads {data : List UInt8} {n : UInt64} {output : Block UInt8 1}
    (h : mbase64Encode malloc data n = .ok output) : n.toNat ≤ data.length := by
  obtain ⟨_, _, h⟩ := Outcome.bind_eq_ok.mp h
  obtain ⟨w, hloop, _⟩ := Outcome.bind_eq_ok.mp h
  -- behind the first round, the octets before `i` have been taken
  have hinv := whileLoop_keeps (fun v : EncodeVars => v.i = 0 ∨ ∃ k orig, v.i = k + 3 ∧
      k < n.toNat ∧ takeOctets data n k = .ok orig)
    (fun v u _ hcond hround => by
      obtain ⟨hi, orig, htake⟩ := encodeRound_takes hround
      exact .inr ⟨v.i, orig, hi, by simpa using hcond, htake⟩)
    _ _ _ (.inl rfl) hloop
  have hend : ¬ w.i < n.toNat := by simpa using whileLoop_ends hloop
  rcases hinv with h0 | ⟨k, orig, hk, hlt, htake⟩
  · omega
  · exact takeOctets_last hlt (by omega) htake

/-! ## Decoding -/

/-- The value of a character, 0 when it has none. -/
def sextet (c : UInt8) : UInt8 := (b64AlphabetReverse c).toUInt8

def decodeGroup (a b c d : UInt8) : List UInt8 :=
  let orig := convertFromB64 ⟨sextet a, sextet b, sextet c, sextet d⟩
  [orig.one, orig.two, orig.three]

/-- Four characters at a time; what is left over, fewer than four, is dropped. -/
def decodeList : List UInt8 → List UInt8
  | a :: b :: c :: d :: rest => decodeGroup a b c d ++ decodeList rest
  | _ => []

def paddingCount (cs : List UInt8) : Nat :=
  if 3 < cs.length then
    (if cs[cs.length - 1]? = some padChar then 1 else 0) +
      (if cs[cs.length - 2]? = some padChar then 1 else 0)
  else 0

@[simp] theorem decodeGroup_length (a b c d : UInt8) : (decodeGroup a b c d).length = 3 := rfl

theorem decodeList_length (cs : List UInt8) : (decodeList cs).length = 3 * (cs.length / 4) := by
  induction cs using decodeList.induct with
  | case1 a b c d rest ih =>
    simp only [decodeList, List.length_append, decodeGroup_length, ih, List.length_cons]
    omega
  | case2 cs h =>
    rcases cs with _ | ⟨a, _ | ⟨b, _ | ⟨c, _ | ⟨d, rest⟩⟩⟩⟩
    · rfl
    · simp [decodeList]
    · simp [decodeList]
    · simp [decodeList]
    · exact absurd rfl (h a b c d rest)

theorem countPadding_eq (s : CString) :
    countPadding s = .ok (UInt64.ofNat (paddingCount s.chars)) := by
  have hget : ∀ (k : UInt64) (hpos : 0 < k.toNat) (hk : k.toNat ≤ s.chars.length),
      s.get (s.strlen - k).toNat = .ok s.chars[s.chars.length - k.toNat] := by
    intro k hpos hk
    apply CString.get_of
    rw [UInt64.toNat_sub_of_le _ _ (by rw [UInt64.le_iff_toNat_le, s.strlen_toNat]; exact hk),
      s.strlen_toNat]
    exact List.getElem?_eq_getElem (by omega)
  unfold countPadding paddingCount
  by_cases h3 : 3 < s.chars.length
  · have hgt : s.strlen > 3 := by
      rw [gt_iff_lt, UInt64.lt_iff_toNat_lt, s.strlen_toNat]; exact h3
    have hlast := hget 1 (by decide) (show 1 ≤ _ by omega)
    have hsecond := hget 2 (by decide) (show 2 ≤ _ by omega)
    simp only [show (1 : UInt64).toNat = 1 from rfl,
      show (2 : UInt64).toNat = 2 from rfl] at hlast hsecond
    simp only [hgt, h3, if_true, hlast, hsecond, Outcome.ok_bind, Outcome.pure_eq,
      List.getElem?_eq_getElem (show s.chars.length - 1 < s.chars.length by omega),
      List.getElem?_eq_getElem (show s.chars.length - 2 < s.chars.length by omega), Option.some.injEq]
    split_ifs <;> rfl
  · have hgt : ¬ s.strlen > 3 := by
      rw [gt_iff_lt, UInt64.lt_iff_toNat_lt, s.strlen_toNat]; exact h3
    simp [hgt, h3]

theorem decodeRound_eq {s : CString} {pre rest : List UInt8} {a b c d : UInt8} {v : DecodeVars}
    (hs : s.chars = pre ++ a :: b :: c :: d :: rest) (hi : v.i = pre.length)
    (hfit : v.k + 3 ≤ v.output.bytes) (hmax : v.i + 4 ≤ intMax) (hk : v.k + 3 ≤ intMax) :
    decodeRound s v = .ok {
      output := v.output.write v.k (decodeGroup a b c d)
      i := v.i + 4
      k := v.k + 3 } := by
  have hmap : ∀ {j x}, (a :: b :: c :: d :: rest)[j]? = some x → j ≤ 4 →
      mapChar s v.i j = .ok (sextet x) := by
    intro j x hx hj
    have hget : s.get (v.i + j) = .ok x := CString.get_of (by
      rw [hs, hi, List.getElem?_append_right (by omega), Nat.add_sub_cancel_left, hx])
    simp [mapChar, intAdd_of (show v.i + j ≤ intMax by omega), hget, sextet]
  let orig := convertFromB64 ⟨sextet a, sextet b, sextet c, sextet d⟩
  have h1 := Block.store_write_one (b := v.output) (k := v.k) orig.one (by unfold Block.Fits; omega)
  have h2 := Block.store_write v.output v.k [orig.one] orig.two
    (by simp [Block.Fits]; omega)
  have h3 := Block.store_write v.output v.k [orig.one, orig.two] orig.three
    (by simp [Block.Fits]; omega)
  simp only [List.length_cons, List.length_nil, List.cons_append, List.nil_append,
    Nat.zero_add] at h2 h3
  simp only [decodeRound, hmap (j := 0) rfl (by omega), hmap (j := 1) rfl (by omega),
    hmap (j := 2) rfl (by omega), hmap (j := 3) rfl (by omega), Outcome.ok_bind,
    intAdd_of (show v.k + 1 ≤ intMax by omega), intAdd_of (show v.k + 2 ≤ intMax by omega),
    intAdd_of hmax, intAdd_of hk, Outcome.pure_eq]
  rw [h1, Outcome.ok_bind, h2, Outcome.ok_bind, h3, Outcome.ok_bind]
  rfl

/-- The loop of `mbase64_decode` stores the decoding of what is left of the string. -/
theorem decodeLoop_eq {s : CString} (rest : List UInt8) :
    ∀ (fuel : Nat) (pre : List UInt8) (v : DecodeVars), s.chars = pre ++ rest →
      rest.length % 4 = 0 → rest.length < fuel → v.i = pre.length → s.chars.length ≤ intMax →
      v.k + (decodeList rest).length ≤ v.output.bytes → v.k + (decodeList rest).length ≤ intMax →
      decodeLoop s fuel v = .ok {
        output := v.output.write v.k (decodeList rest)
        i := s.chars.length
        k := v.k + (decodeList rest).length } := by
  induction rest using decodeList.induct with
  | case1 a b c d rest ih =>
    intro fuel pre v hs h4 hf hi hmax hfit hk
    simp only [decodeList, List.length_append, decodeGroup_length, List.length_cons] at h4 hf hfit hk
    obtain ⟨fuel, rfl⟩ : ∃ k, fuel = k + 1 := ⟨fuel - 1, by omega⟩
    have hlen : s.chars.length = pre.length + (rest.length + 4) := by rw [hs]; simp
    have hcond : v.i < s.chars.length := by omega
    have hrec := ih fuel (pre ++ [a, b, c, d])
      { output := v.output.write v.k (decodeGroup a b c d), i := v.i + 4, k := v.k + 3 }
      (by simp [hs]) (by omega) (by omega) (by simp [hi]) hmax
      (by simp only [Block.write_bytes]; omega) (by simp only; omega)
    rw [decodeLoop, whileLoop_round (by simp [hcond])
      (decodeRound_eq hs hi (by omega) (by omega) (by omega)), ← decodeLoop, hrec]
    simp only [decodeList, Block.write_append, List.length_append, decodeGroup_length, Nat.add_assoc]
  | case2 rest h =>
    intro fuel pre v hs h4 hf hi hmax hfit hk
    have hnil : rest = [] := by
      rcases rest with _ | ⟨a, _ | ⟨b, _ | ⟨c, _ | ⟨d, rest⟩⟩⟩⟩
      · rfl
      · simp at h4
      · simp at h4
      · simp at h4
      · exact absurd rfl (h a b c d rest)
    subst hnil
    obtain ⟨fuel, rfl⟩ : ∃ k, fuel = k + 1 := ⟨fuel - 1, by simp at hf; omega⟩
    have hend : v.i = s.chars.length := by rw [hs, hi, List.append_nil]
    rw [decodeLoop, whileLoop_exit (by simp [hend])]
    simp [decodeList, ← hend]

theorem strlen_mod_four {s : CString} : s.strlen % 4 ≠ 0 ↔ s.chars.length % 4 ≠ 0 := by
  rw [Ne, ← UInt64.toNat_inj, UInt64.toNat_mod, s.strlen_toNat]
  rfl

theorem outputBytes_eq {s : CString} (h4 : s.chars.length % 4 = 0)
    (hfits : s.chars.length ≤ intMax) :
    toInt (3 * s.strlen / 4) = ((decodeList s.chars).length : Nat) := by
  unfold intMax at hfits
  have hsize : (3 * s.strlen / 4).toNat = (decodeList s.chars).length := by
    rw [decodeList_length, UInt64.toNat_div, UInt64.toNat_mul, s.strlen_toNat,
      show (3 : UInt64).toNat = 3 from rfl, show (4 : UInt64).toNat = 4 from rfl]
    omega
  have hlen := decodeList_length s.chars
  rw [toInt_of_le (by unfold intMax; omega), hsize]

/-- **What `mbase64_decode` returns** for a string whose length is a multiple of four:
the decoded octets, and their number less the padding. -/
theorem mbase64Decode_eq (hm : ∀ n, malloc n = true) {s : CString} (h4 : s.chars.length % 4 = 0)
    (hfits : s.chars.length ≤ intMax) :
    mbase64Decode malloc s =
      .ok (some ((Block.alloc (decodeList s.chars).length).write 0 (decodeList s.chars),
        UInt64.ofNat (decodeList s.chars).length - UInt64.ofNat (paddingCount s.chars))) := by
  have hlen := decodeList_length s.chars
  have hint := outputBytes_eq h4 hfits
  unfold intMax at hfits
  have hmod := mt strlen_mod_four.mp (not_not.mpr h4)
  have houtput : (UInt64.ofNat (decodeList s.chars).length).toNat = (decodeList s.chars).length := by
    rw [UInt64.toNat_ofNat', Nat.mod_eq_of_lt (by omega)]
  have hk : toSize ((decodeList s.chars).length : Nat) = UInt64.ofNat (decodeList s.chars).length :=
    UInt64.toNat_inj.mp (by rw [houtput, toSize_natCast (by omega)])
  have hloop := decodeLoop_eq s.chars (s.strlen.toNat + 1) []
    { output := Block.alloc (decodeList s.chars).length, i := 0, k := 0 } rfl h4 (by simp) rfl
    (by unfold intMax; omega) (by simp [Block.alloc]) (by unfold intMax; simp only; omega)
  simp only [mbase64Decode, if_neg hmod, hint, Outcome.assert_of (hm _), Outcome.ok_bind,
    countPadding_eq,
    hk, houtput, hloop, Nat.zero_add, Outcome.pure_eq]

end Mikelibc.Base64
