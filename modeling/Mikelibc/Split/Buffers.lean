import Mikelibc.Split.Loop

/-! # The size of the string buffers

A run in memory that is no larger than requested: every block has just the bytes
that `malloc` was asked for. The copy of given separators lacks a byte for the
terminator, and so does the buffer of every word; so the run is in bounds exactly
when there is neither, and `i` stays within `int`. -/
namespace Mikelibc.Split
open CSem

/-- `malloc` grants every request, and not a byte more. -/
def exact (n : Nat) : Option Nat := some n

/-- In blocks of just the requested sizes, `msplit` writes no index outside a block, no assertion
fails, and nothing outside the input string is read. -/
def InBounds (input : CString) (separators : Option CString) : Prop :=
  ∃ array, msplit exact input separators = .ok array

variable {input : CString} {seps : List UInt8} {v v' : SplitVars}

theorem mallocAssert_exact {α : Type} {w : Nat} (n : Nat) :
    (mallocAssert exact n : Outcome (Block α w)) = .ok (Block.alloc n) := rfl

/-- The separators given are copied past the end of their block. -/
theorem copySeps_exact (s : CString) : copySeps exact (some s) = .fault :=
  Block.strcpy_past (b := Block.alloc (min s.chars.length maxSeparator))
    (Nat.not_lt.mpr (Nat.min_le_left _ _))

/-- The terminator of a word is written past the end of its block, so only outside a word does
the call return. -/
theorem storeWord_exact_ok (h : storeWord exact input v = .ok v') : v.inword = false ∧ v' = v := by
  by_cases hin : v.inword = true
  · rw [storeWord, if_pos hin, mallocAssert_exact, Outcome.ok_bind] at h
    obtain ⟨_, _, h⟩ := Outcome.bind_eq_ok.mp h
    obtain ⟨_, _, h⟩ := Outcome.bind_eq_ok.mp h
    obtain ⟨word, hcopy, h⟩ := Outcome.bind_eq_ok.mp h
    obtain ⟨_, hterm, _⟩ := Outcome.bind_eq_ok.mp h
    obtain ⟨_, _, hcopy⟩ := Outcome.bind_eq_ok.mp hcopy
    cases hcopy
    have hfits := (Block.store_eq_ok.mp hterm).1
    simp only [Block.Fits, Block.write_bytes, Block.alloc] at hfits
    omega
  · rw [storeWord, if_neg hin] at h
    cases h
    exact ⟨by simpa using hin, rfl⟩

theorem startWord_inword (h : startWord exact v = .ok v') : v'.inword = true := by
  simp only [startWord] at h
  split at h
  · split at h <;> cases h
    rfl
  · cases h
    rfl

/-! ## The loop -/

/-- The characters before the last are separators as far as they have been read, or a word has
begun. -/
def Clear (input : CString) (seps : List UInt8) (v : SplitVars) : Prop :=
  v.inword = false ∧
      (∀ k c, input.chars[k]? = some c → k < v.i → k + 1 < input.chars.length →
        isSep seps c = true) ∨
    v.inword = true ∧ v.i < input.chars.length

/-- Outside a word, the characters before the last that have been read are separators. -/
theorem Clear.separators (h : Clear input seps v) (hout : v.inword = false) {k : Nat} {c : UInt8}
    (hc : input.chars[k]? = some c) (hk : k < v.i) (hlt : k + 1 < input.chars.length) :
    isSep seps c = true := by
  rcases h with ⟨_, hseps⟩ | ⟨hin, _⟩
  · exact hseps k c hc hk hlt
  · rw [hout] at hin
    cases hin

/-- A round in the exact memory stores no word, so a word that has begun does not end. -/
theorem splitRound_clear (hclear : Clear input seps v) (hi : v.i < input.chars.length)
    (h : splitRound exact input seps v = .ok v') : Clear input seps v' := by
  obtain ⟨u, hbody, h⟩ := Outcome.bind_eq_ok.mp h
  obtain ⟨i, hnext, h⟩ := Outcome.bind_eq_ok.mp h
  obtain ⟨_, rfl⟩ := intAdd_eq_ok.mp hnext
  cases h
  have hget : input.chars[v.i]? = some input.chars[v.i] := List.getElem?_eq_getElem hi
  rw [splitBody, CString.get_of hget, Outcome.ok_bind] at hbody
  by_cases hlast : v.i = (input.strlen - 1).toNat
  · -- at the last character a word would be stored
    simp only [endOfString, if_pos hlast] at hbody
    obtain ⟨⟨_, w⟩, hend, hbody⟩ := Outcome.bind_eq_ok.mp hbody
    obtain ⟨_, _, hend⟩ := Outcome.bind_eq_ok.mp hend
    obtain ⟨j, hj, hend⟩ := Outcome.bind_eq_ok.mp hend
    obtain ⟨_, rfl⟩ := intAdd_eq_ok.mp hj
    cases hend
    simp only [if_true] at hbody
    rw [strlen_sub_one (by omega)] at hlast
    obtain ⟨hout, rfl⟩ := storeWord_exact_ok hbody
    exact .inl ⟨hout, fun k c hc _ hk => hclear.separators hout hc (by omega) hk⟩
  · simp only [endOfString, if_neg hlast, Outcome.pure_eq, Outcome.ok_bind,
      ← isSep.eq_def] at hbody
    rw [strlen_sub_one (by omega)] at hlast
    by_cases hsep : isSep seps input.chars[v.i]
    · rw [if_pos hsep] at hbody
      obtain ⟨hout, rfl⟩ := storeWord_exact_ok hbody
      refine .inl ⟨hout, fun k c hc hk hlt => ?_⟩
      rcases Nat.lt_succ_iff_lt_or_eq.mp hk with hk | rfl
      · exact hclear.separators hout hc hk hlt
      · rw [hget] at hc
        cases hc
        exact hsep
    · rw [if_neg hsep] at hbody
      by_cases hout : v.inword = false
      · rw [if_pos hout] at hbody
        have hui := startWord_i hbody
        have hin := startWord_inword hbody
        exact .inr ⟨hin, by simp only; omega⟩
      · rw [if_neg hout] at hbody
        obtain ⟨_, _, hbody⟩ := Outcome.bind_eq_ok.mp hbody
        cases hbody
        exact .inr ⟨by simpa using hout, by simp only; omega⟩

/-- A loop that ends has found separators only, the last character apart. -/
theorem splitLoop_clear {fuel : Nat} (hstart : v.inword = false) (hi : v.i = 0)
    (h : splitLoop exact input seps fuel v = .ok v') :
    ∀ c ∈ input.chars.dropLast, isSep seps c = true := by
  have hclear := whileLoop_keeps (Clear input seps)
    (fun u w hu hc hround => splitRound_clear hu (by simpa using hc) hround) _ _ _
    (.inl ⟨hstart, fun k c _ hk => by omega⟩) h
  have hend : ¬ v'.i < input.chars.length := by simpa using whileLoop_ends h
  intro c hc
  obtain ⟨k, hk, rfl⟩ := List.mem_iff_getElem.mp hc
  rw [List.length_dropLast] at hk
  rw [List.getElem_dropLast]
  rcases hclear with ⟨_, hseps⟩ | ⟨_, hin⟩
  · exact hseps k _ (List.getElem?_eq_getElem (by omega)) (by omega) (by omega)
  · exact absurd hin hend

/-- Separators only, the last character apart: the loop passes over them all. -/
theorem splitLoop_passes (hmax : input.chars.length < intMax) (rest : List UInt8) :
    ∀ (fuel : Nat) (pre : List UInt8) (v : SplitVars), input.chars = pre ++ rest → rest ≠ [] →
      v.i = pre.length → v.inword = false → v.wordLength = 0 → rest.length < fuel →
      (∀ c ∈ rest.dropLast, isSep seps c = true) →
      ∃ v', splitLoop exact input seps fuel v = .ok v' ∧ v'.splitArray = v.splitArray ∧
        v'.nwords = v.nwords := by
  induction rest with
  | nil => intro fuel pre v _ hne; exact absurd rfl hne
  | cons c rest ih =>
    intro fuel pre v hchars _ hi hout hzero hfuel hseps
    obtain ⟨fuel, rfl⟩ : ∃ k, fuel = k + 2 := ⟨fuel - 2, by simp at hfuel; omega⟩
    have hlen : input.chars.length = pre.length + (rest.length + 1) := by rw [hchars]; simp
    have hcond : v.i < input.chars.length := by omega
    have hget : input.get v.i = .ok c := CString.get_of (by rw [hchars, hi]; simp)
    have hnext : intAdd v.i 1 = .ok (v.i + 1) := intAdd_of (by omega)
    cases rest with
    | nil =>
      have hlast : v.i = (input.strlen - 1).toNat := by
        rw [strlen_sub_one (by omega)]; simp at hlen; omega
      have hafter : intAdd (v.i + 1) 1 = .ok (v.i + 1 + 1) := intAdd_of (by simp at hlen; omega)
      have hlonger : intAdd v.wordLength 1 = .ok (v.wordLength + 1) :=
        intAdd_of (by rw [hzero]; decide)
      have hround : splitRound exact input seps v =
          .ok { v with wordLength := v.wordLength + 1, i := v.i + 1 + 1 } := by
        simp [splitRound, splitBody, hget, endOfString, ← hlast, hnext, hlonger, storeWord, hout,
          hafter]
      refine ⟨{ v with wordLength := v.wordLength + 1, i := v.i + 1 + 1 }, ?_, rfl, rfl⟩
      have hexit : ¬ v.i + 1 + 1 < input.chars.length := by simp at hlen; omega
      rw [splitLoop, whileLoop_round (by simp [hcond]) hround, whileLoop_exit (by simp [hexit])]
    | cons d rest =>
      have hnotlast : v.i ≠ (input.strlen - 1).toNat := by
        rw [strlen_sub_one (by omega)]; simp at hlen; omega
      have hsep : seps.any (c == ·) = true := hseps c (by simp)
      have hround : splitRound exact input seps v = .ok { v with i := v.i + 1 } := by
        simp only [splitRound, splitBody, hget, endOfString, if_neg hnotlast, Outcome.ok_bind,
          Outcome.pure_eq, hsep, if_true, storeWord, hout, Bool.false_eq_true, if_false, hnext]
      obtain ⟨v', hloop, harray, hwords⟩ := ih (fuel + 1) (pre ++ [c]) { v with i := v.i + 1 }
        (by simp [hchars]) (by simp) (by simp [hi]) hout hzero (by simp at hfuel ⊢; omega)
        fun e he => hseps e (by simp [he])
      refine ⟨v', ?_, harray, hwords⟩
      rw [splitLoop, whileLoop_round (by simp [hcond]) hround]
      exact hloop

/-! ## The whole function -/

/-- The copy of the default separators just fits. -/
theorem copySeps_default :
    ∃ seps, copySeps exact none = .ok seps ∧ seps.cstring = .ok defaultSep := by
  have hfit : defaultSep.chars.length < (Block.alloc 5 : Block UInt8 1).bytes := by decide
  exact ⟨_, Block.strcpy_of hfit, Block.cstring_of defaultSep (Block.holds_write _ _ _) hfit⟩

/-- **When the string buffers of `msplit` are large enough**: for the default separators only,
when the characters before the last are separators, so that no word is stored; and `i` must stay
within `int`. -/
theorem msplit_inBounds_iff (input : CString) (separators : Option CString) :
    InBounds input separators ↔ separators = none ∧ input.chars.length < intMax ∧
      ∀ c ∈ input.chars.dropLast, isSep defaultSep.chars c = true := by
  obtain ⟨seps, hseps, hstr⟩ := copySeps_default
  constructor
  · intro h
    obtain ⟨array, h⟩ := h
    have hmax := msplit_short h
    rw [msplit, mallocAssert_exact, Outcome.ok_bind] at h
    cases separators with
    | some s => rw [copySeps_exact] at h; cases h
    | none =>
      rw [hseps, Outcome.ok_bind, hstr, Outcome.ok_bind] at h
      obtain ⟨v', hloop, _⟩ := Outcome.bind_eq_ok.mp h
      exact ⟨rfl, hmax, splitLoop_clear rfl rfl hloop⟩
  · rintro ⟨rfl, hmax, hclear⟩
    let start : SplitVars := ⟨Block.alloc (ptrSize * splitSizeInitial), splitSizeInitial, 0, false,
      0, 0⟩
    obtain ⟨v', hloop, harray, hwords⟩ : ∃ v',
        splitLoop exact input defaultSep.chars (input.strlen.toNat + 1) start = .ok v' ∧
        v'.splitArray = start.splitArray ∧ v'.nwords = start.nwords := by
      by_cases hne : input.chars = []
      · exact ⟨start, by rw [splitLoop, whileLoop_exit (by simp [hne])], rfl, rfl⟩
      · exact splitLoop_passes hmax input.chars _ [] start rfl hne rfl rfl rfl (by simp) hclear
    have hend := Block.store_of (b := v'.splitArray) (i := v'.nwords) (none : Slot) (by
      rw [harray, hwords]
      decide)
    have hsplit : msplit exact input none = v'.splitArray.store v'.nwords none := by
      rw [msplit, mallocAssert_exact, Outcome.ok_bind, hseps, Outcome.ok_bind, hstr,
        Outcome.ok_bind, hloop, Outcome.ok_bind]
    exact ⟨_, hsplit.trans hend⟩

/-- `"ab"` with the default separators: the one word is written past its buffer. -/
theorem msplit_out_of_bounds :
    ¬ ∀ (input : CString) (separators : Option CString),
      (∀ s ∈ separators, s.chars.length ≤ maxSeparator) → InBounds input separators := by
  intro h
  obtain ⟨array, hsplit⟩ := h ⟨['a', 'b'].map Char.toUInt8, by decide, by decide⟩ none (by simp)
  rw [show msplit exact ⟨['a', 'b'].map Char.toUInt8, by decide, by decide⟩ none = .fault
    from rfl] at hsplit
  cases hsplit

end Mikelibc.Split
