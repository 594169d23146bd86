import Mikelibc.Split.Loop

/-! # The array of `msplit`

`array_length` counts the slots, and the array is made longer when a word begins that
has no slot. The slot for the `NULL` is never asked for, so it is missing when the words
fill the array: with 8, 16, 32, … words. None of this depends on how large the blocks
really are. -/
namespace Mikelibc.Split
open CSem

def splitStart (splitArray : Block Slot 8) : SplitVars :=
  ⟨splitArray, splitSizeInitial, 0, false, 0, 0⟩

/-- The round in `v` stores a word: it is in one, at a separator or at the last character. -/
def StoresWord (input : CString) (seps : List UInt8) (v : SplitVars) : Prop :=
  v.inword = true ∧ ∃ c, input.chars[v.i]? = some c ∧
    (isSep seps c = true ∨ v.i + 1 = input.chars.length)

/-- In every run each slot that is written, for a word or for the `NULL`, is below the
`array_length` of that moment. -/
structure SlotsInside (malloc : Nat → Option Nat) (input : CString) (separators : Option CString) :
    Prop where
  words : ∀ array block seps v, mallocAssert malloc (ptrSize * splitSizeInitial) = .ok array →
    copySeps malloc separators = .ok block → block.cstring = .ok seps →
    LoopReaches (fun v => return decide (v.i < input.strlen.toNat))
      (splitRound malloc input seps.chars) (splitStart array) v →
    StoresWord input seps.chars v → v.nwords < v.arrayLength
  terminator : ∀ array block seps v, mallocAssert malloc (ptrSize * splitSizeInitial) = .ok array →
    copySeps malloc separators = .ok block → block.cstring = .ok seps →
    splitLoop malloc input seps.chars (input.strlen.toNat + 1) (splitStart array) = .ok v →
    v.nwords < v.arrayLength

/-! ## The number of words -/

def wordCount (sep : UInt8 → Bool) : Bool → List UInt8 → Nat
  | _, [] => 0
  | inword, [_] => inword.toNat
  | inword, c :: d :: rest =>
    if sep c then inword.toNat + wordCount sep false (d :: rest) else wordCount sep true (d :: rest)

theorem wordCount_cons {sep : UInt8 → Bool} (inword : Bool) (c : UInt8) {rest : List UInt8}
    (h : rest ≠ []) : wordCount sep inword (c :: rest) =
      if sep c then inword.toNat + wordCount sep false rest else wordCount sep true rest := by
  cases rest with
  | nil => exact absurd rfl h
  | cons d rest => rfl

/-- The words counted are those of the string without its last character, which never begins one. -/
theorem wordCount_eq {sep : UInt8 → Bool} (rest : List UInt8) :
    ∀ cur : List UInt8, rest ≠ [] →
      wordCount sep (decide (cur ≠ [])) rest = (wordsFrom sep cur rest.dropLast).length := by
  have hclose : ∀ cur : List UInt8, (closeWord cur).length = (decide (cur ≠ [])).toNat := by
    intro cur
    by_cases h : cur = [] <;> simp [closeWord, h]
  induction rest with
  | nil => intro cur h; exact absurd rfl h
  | cons c rest ih =>
    intro cur _
    cases rest with
    | nil => rw [wordCount, List.dropLast_singleton, wordsFrom_nil, hclose]
    | cons d rest =>
      rw [wordCount, List.dropLast_cons_of_ne_nil (List.cons_ne_nil d rest), wordsFrom_cons]
      have hempty := ih [] (List.cons_ne_nil d rest)
      have hlonger := ih (cur ++ [c]) (List.cons_ne_nil d rest)
      simp only [ne_eq, not_true_eq_false, decide_false] at hempty
      simp only [ne_eq, List.append_eq_nil_iff, List.cons_ne_nil, and_false, not_false_eq_true,
        decide_true] at hlonger
      by_cases hc : sep c
      · rw [if_pos hc, if_pos hc, List.length_append, hclose, hempty]
      · rw [if_neg hc, if_neg hc, hlonger]

theorem wordCount_splitWords {sep : UInt8 → Bool} (cs : List UInt8) :
    wordCount sep false cs = (splitWords sep cs.dropLast).length := by
  by_cases h : cs = []
  · subst h
    rw [wordCount, List.dropLast_nil, ← wordsFrom_start, wordsFrom_nil]
    rfl
  · rw [← wordsFrom_start]
    exact wordCount_eq cs [] h

/-! ## A round -/

variable {malloc : Nat → Option Nat} {input : CString} {seps : List UInt8} {v v' : SplitVars}

/-- What a round does to the counters: it is passed over or ends a word at a separator or the last
character; otherwise it begins or continues one, and only where a word begins the array grows. -/
theorem splitRound_ok {c : UInt8} {rest : List UInt8} (hrest : input.chars.drop v.i = c :: rest)
    (h : splitRound malloc input seps v = .ok v') :
    input.chars.drop v'.i = rest ∧
    ((rest = [] ∨ isSep seps c = true) ∧ v'.inword = false ∧
        v'.nwords = v.nwords + v.inword.toNat ∧ v'.arrayLength = v.arrayLength ∨
      (rest ≠ [] ∧ isSep seps c = false) ∧ v'.inword = true ∧ v'.nwords = v.nwords ∧
        (v'.arrayLength = v.arrayLength ∧ (v.inword = true ∨ v.nwords < v.arrayLength) ∨
          v.inword = false ∧ v.arrayLength ≤ v.nwords ∧
            v'.arrayLength = v.arrayLength * splitGrowFactor)) := by
  have hlt : v.i < input.chars.length := by
    by_contra hge
    rw [List.drop_eq_nil_of_le (Nat.le_of_not_lt hge)] at hrest
    cases hrest
  have hc : input.chars[v.i]? = some c := by rw [← List.head?_drop, hrest]; rfl
  have hnext : input.chars.drop (v.i + 1) = rest := by
    rw [← List.drop_drop, hrest]
    rfl
  obtain ⟨u, hbody, h⟩ := Outcome.bind_eq_ok.mp h
  obtain ⟨i, hi, h⟩ := Outcome.bind_eq_ok.mp h
  obtain ⟨_, rfl⟩ := intAdd_eq_ok.mp hi
  cases h
  rw [splitBody, CString.get_of hc, Outcome.ok_bind] at hbody
  by_cases hlast : v.i = (input.strlen - 1).toNat
  · simp only [endOfString, if_pos hlast] at hbody
    obtain ⟨⟨_, w⟩, hend, hbody⟩ := Outcome.bind_eq_ok.mp hbody
    obtain ⟨_, _, hend⟩ := Outcome.bind_eq_ok.mp hend
    obtain ⟨j, hj, hend⟩ := Outcome.bind_eq_ok.mp hend
    obtain ⟨_, rfl⟩ := intAdd_eq_ok.mp hj
    cases hend
    simp only [if_true] at hbody
    obtain ⟨array, rfl⟩ := storeWord_ok hbody
    rw [strlen_sub_one (by omega)] at hlast
    have hnil : rest = [] := by
      rw [← hnext]
      exact List.drop_eq_nil_of_le (by omega)
    refine ⟨?_, .inl ⟨.inl hnil, rfl, rfl, rfl⟩⟩
    rw [hnil]
    exact List.drop_eq_nil_of_le (by simp only; omega)
  · simp only [endOfString, if_neg hlast, Outcome.pure_eq, Outcome.ok_bind,
      ← isSep.eq_def] at hbody
    rw [strlen_sub_one (by omega)] at hlast
    have hmore : rest ≠ [] := by
      rw [← hnext, Ne, List.drop_eq_nil_iff]
      omega
    by_cases hsep : isSep seps c
    · rw [if_pos hsep] at hbody
      obtain ⟨array, rfl⟩ := storeWord_ok hbody
      exact ⟨hnext, .inl ⟨.inr hsep, rfl, rfl, rfl⟩⟩
    · rw [if_neg hsep] at hbody
      have hno : rest ≠ [] ∧ isSep seps c = false := ⟨hmore, by simpa using hsep⟩
      by_cases hout : v.inword = false
      · rw [if_pos hout] at hbody
        obtain ⟨array, length, rfl, hgrow⟩ := startWord_ok hbody
        refine ⟨hnext, .inr ⟨hno, rfl, rfl, ?_⟩⟩
        rcases hgrow with ⟨hroom, rfl⟩ | ⟨hfull, rfl⟩
        · exact .inl ⟨rfl, .inr hroom⟩
        · exact .inr ⟨hout, hfull, rfl⟩
      · rw [if_neg hout] at hbody
        obtain ⟨_, _, hbody⟩ := Outcome.bind_eq_ok.mp hbody
        cases hbody
        have hin : v.inword = true := by simpa using hout
        exact ⟨hnext, .inr ⟨hno, hin, rfl, .inl ⟨rfl, .inl hin⟩⟩⟩

/-! ## The loop -/

/-- The counters between two rounds: the words stored and still to be stored are those of the
string; every word that has begun has a slot, and there are at most twice as many slots as that
once the array has grown. -/
structure Counted (input : CString) (seps : List UInt8) (v : SplitVars) : Prop where
  count : v.nwords + wordCount (isSep seps) v.inword (input.chars.drop v.i) =
    wordCount (isSep seps) false input.chars
  room : v.nwords + v.inword.toNat ≤ v.arrayLength
  grown : ∃ k, v.arrayLength = 8 * 2 ^ k ∧
    (k = 0 ∨ v.arrayLength < 2 * (v.nwords + v.inword.toNat))
  outside : input.chars.drop v.i = [] → v.inword = false

theorem counted_start (array : Block Slot 8) : Counted input seps (splitStart array) :=
  ⟨by rw [splitStart, List.drop_zero, Nat.zero_add], Nat.zero_le _, ⟨0, rfl, .inl rfl⟩,
    fun _ => rfl⟩

theorem splitRound_counted (h : Counted input seps v) (hi : v.i < input.chars.length)
    (hround : splitRound malloc input seps v = .ok v') : Counted input seps v' := by
  have hrest := List.drop_eq_getElem_cons hi
  obtain ⟨hdrop, hcase⟩ := splitRound_ok hrest hround
  have hcount := h.count
  have hroom := h.room
  obtain ⟨k, hk, hless⟩ := h.grown
  rw [hrest] at hcount
  rcases hcase with ⟨hclose, hin, hn, hlen⟩ | ⟨⟨hmore, hsep⟩, hin, hn, hlen⟩
  · refine ⟨?_, ?_, ⟨k, ?_, ?_⟩, fun _ => hin⟩
    · rw [hin, hn, hdrop, ← hcount, Nat.add_assoc]
      by_cases hnil : input.chars.drop (v.i + 1) = []
      · rw [hnil]
        rfl
      · rw [wordCount_cons _ _ hnil, if_pos (hclose.resolve_left hnil)]
    · rw [hin, hn, hlen]
      exact hroom
    · rw [hlen, hk]
    · rw [hin, hn, hlen]
      exact hless
  · have hnonempty : input.chars.drop v'.i = [] → v'.inword = false := fun hnil =>
      absurd (hdrop.symm.trans hnil) hmore
    have hsame : v'.nwords + wordCount (isSep seps) v'.inword (input.chars.drop v'.i) =
        wordCount (isSep seps) false input.chars := by
      rw [hin, hn, hdrop, ← hcount, wordCount_cons _ _ hmore, if_neg (by simp [hsep])]
    have htrue : v'.inword.toNat = 1 := by rw [hin]; rfl
    rcases hlen with ⟨hlen, hslot⟩ | ⟨hout, hfull, hlen⟩
    · have hbit := Bool.toNat_le v.inword
      refine ⟨hsame, ?_, ⟨k, by rw [hlen, hk], ?_⟩, hnonempty⟩
      · rcases hslot with hin' | hlt
        · rw [hin'] at hroom
          rw [htrue, hn, hlen]
          exact hroom
        · omega
      · omega
    · rw [hout, Bool.toNat_false] at hroom
      unfold splitGrowFactor at hlen
      have hpos := Nat.two_pow_pos k
      exact ⟨hsame, by omega, ⟨k + 1, by rw [hlen, hk, Nat.pow_succ, Nat.mul_assoc], by omega⟩,
        hnonempty⟩

theorem reaches_counted {array : Block Slot 8}
    (h : LoopReaches (fun v => return decide (v.i < input.strlen.toNat))
      (splitRound malloc input seps) (splitStart array) v) : Counted input seps v :=
  h.keeps (Counted input seps)
    (fun _ _ hv hc hround => splitRound_counted hv (by simpa using hc) hround) (counted_start array)

/-- Behind the loop `nwords` is the number of words, and `array_length` the least size there is
that has room for them. -/
theorem splitLoop_counted {array : Block Slot 8} {fuel : Nat}
    (h : splitLoop malloc input seps fuel (splitStart array) = .ok v) :
    v.nwords = wordCount (isSep seps) false input.chars ∧ v.nwords ≤ v.arrayLength ∧
      ∃ k, v.arrayLength = 8 * 2 ^ k ∧ (k = 0 ∨ v.arrayLength < 2 * v.nwords) := by
  have hcounted := whileLoop_keeps (Counted input seps)
    (fun _ _ hv hc hround => splitRound_counted hv (by simpa using hc) hround) _ _ _
    (counted_start array) h
  have hend : ¬ v.i < input.chars.length := by simpa using whileLoop_ends h
  have hnil := List.drop_eq_nil_of_le (Nat.le_of_not_lt hend)
  have hout := hcounted.outside hnil
  have hcount := hcounted.count
  have hroom := hcounted.room
  have hgrown := hcounted.grown
  rw [hnil, wordCount, Nat.add_zero] at hcount
  rw [hout] at hroom hgrown
  exact ⟨hcount, hroom, hgrown⟩

/-- The words fill the array exactly when their number is one of its sizes. -/
theorem full_iff {n length : Nat} (hroom : n ≤ length)
    (hgrown : ∃ k, length = 8 * 2 ^ k ∧ (k = 0 ∨ length < 2 * n)) :
    n < length ↔ ∀ k, n ≠ 8 * 2 ^ k := by
  obtain ⟨k, rfl, hless⟩ := hgrown
  constructor
  · rintro hlt j rfl
    -- a smaller size has at most half the slots
    have hjk : j < k := by
      by_contra hge
      have := Nat.pow_le_pow_right (show 2 > 0 by decide) (Nat.le_of_not_lt hge)
      omega
    have hhalf := Nat.pow_le_pow_right (show 2 > 0 by decide) (show j + 1 ≤ k from hjk)
    rw [Nat.pow_succ] at hhalf
    omega
  · intro h
    exact Nat.lt_of_le_of_ne hroom (h k)

/-! ## The whole function -/

/-- Blocks with room for one more element, and for all the separators. -/
def ample (separators : Option CString) (n : Nat) : Option Nat :=
  some (n + 8 + (sepString separators).chars.length)

theorem roomy_ample (separators : Option CString) : Roomy (ample separators) :=
  fun n => ⟨n + 8 + (sepString separators).chars.length, rfl, Nat.le_add_right _ _⟩

theorem copySeps_ample (separators : Option CString) :
    ∃ block, copySeps (ample separators) separators = .ok block := by
  have hfit : ∀ n, (sepString separators).chars.length <
      (Block.alloc (n + 8 + (sepString separators).chars.length) : Block UInt8 1).bytes := by
    intro n
    simp only [Block.alloc]
    omega
  cases separators with
  | none => exact ⟨_, Block.strcpy_of (hfit 5)⟩
  | some s => exact ⟨_, Block.strcpy_of (hfit (min s.chars.length maxSeparator))⟩

theorem copySeps_cstring {separators : Option CString} {block : Block UInt8 1}
    (h : copySeps malloc separators = .ok block) : block.cstring = .ok (sepString separators) := by
  have hcopy : ∀ {b : Block UInt8 1} {s : CString}, b.strcpy s = .ok block →
      block.cstring = .ok s := by
    intro b s h
    obtain ⟨_, hfit, h⟩ := Outcome.bind_eq_ok.mp h
    cases h
    exact Block.cstring_of s (Block.holds_write _ _ _) (Outcome.require_eq_ok.mp hfit)
  unfold copySeps at h
  cases separators with
  | none =>
    obtain ⟨_, _, h⟩ := Outcome.bind_eq_ok.mp h
    exact hcopy h
  | some s =>
    obtain ⟨_, _, h⟩ := Outcome.bind_eq_ok.mp h
    exact hcopy h

/-- In blocks that are large enough the loop ends, and if the words fill the array, the `NULL` is
written behind it. -/
theorem SlotsInside.not_full {separators : Option CString}
    (h : SlotsInside (ample separators) input separators) (hmax : input.chars.length < intMax)
    (k : Nat) :
    (splitWords (isSep (sepString separators).chars) input.chars.dropLast).length ≠ 8 * 2 ^ k := by
  obtain ⟨array, harray, hroom⟩ := mallocAssert_roomy (roomy_ample separators) (α := Slot) (w := 8)
    (ptrSize * splitSizeInitial)
  obtain ⟨block, hcopy⟩ := copySeps_ample separators
  have hstr := copySeps_cstring hcopy
  obtain ⟨v, hloop, _⟩ := @splitLoop_whole _ input (roomy_ample separators)
    (sepString separators).chars hmax array hroom
  have hlt := h.terminator array block _ v harray hcopy hstr hloop
  obtain ⟨hn, hle, hgrown⟩ := @splitLoop_counted _ _ _ v array _ hloop
  rw [← wordCount_splitWords, ← hn]
  exact (full_iff hle hgrown).mp hlt k

/-- **When the array of `msplit` has room**: whatever the blocks are like, every word has its slot;
the `NULL` has one exactly when the number of words is not 8, 16, 32 and so on, or when the loop
does not end within `int`. -/
theorem msplit_slots_iff (input : CString) (separators : Option CString) :
    (∀ malloc, SlotsInside malloc input separators) ↔
      intMax ≤ input.chars.length ∨
      ∀ k, (splitWords (isSep (sepString separators).chars) input.chars.dropLast).length ≠
        8 * 2 ^ k := by
  constructor
  · intro h
    by_cases hmax : input.chars.length < intMax
    · exact .inr ((h (ample separators)).not_full hmax)
    · exact .inl (Nat.le_of_not_lt hmax)
  · intro hcond malloc
    constructor
    · intro array block seps v _ _ _ hreaches hstores
      have hroom := (reaches_counted hreaches).room
      rw [hstores.1, Bool.toNat_true] at hroom
      omega
    · intro array block seps v _ hcopy hseps hloop
      rw [copySeps_cstring hcopy] at hseps
      cases hseps
      obtain ⟨hn, hle, hgrown⟩ := splitLoop_counted hloop
      have hmax := splitLoop_short rfl hloop
      refine (full_iff hle hgrown).mpr ?_
      rw [hn, wordCount_splitWords]
      exact hcond.resolve_left (Nat.not_le_of_lt hmax)

/-- `"a b c d e f g hi"` has eight words. -/
theorem msplit_past_array : ¬ ∀ (input : CString) (separators : Option CString) malloc,
    SlotsInside malloc input separators := by
  intro h
  let input : CString := ⟨"a b c d e f g hi".toList.map Char.toUInt8, by decide, by decide⟩
  exact (h input none (ample none)).not_full (by decide) 0 (by decide)

end Mikelibc.Split
