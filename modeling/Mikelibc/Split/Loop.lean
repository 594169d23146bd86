import Mikelibc.Split.Words

/-! # `msplit` and the words of a string

With room for every terminator, a run of the loop stores `codeWords`, one string a
slot, and the array ends in `NULL`. So `msplit` returns the words of its input
exactly when the input ends cleanly and its length leaves the counters within
`int` (`msplit_splits_iff`). -/
namespace Mikelibc.Split
open CSem

variable {malloc : Nat → Option Nat} {input : CString}

/-- Every request is granted, with eight bytes to spare: one more character in a
string, one more slot in the array. -/
def Roomy (malloc : Nat → Option Nat) : Prop := ∀ n, ∃ bytes, malloc n = some bytes ∧ n + 8 ≤ bytes

/-- The block is a string with these characters. -/
def Spells (b : Block UInt8 1) (cs : List UInt8) : Prop :=
  ∃ s : CString, s.chars = cs ∧ b.cstring = .ok s

/-- The first slots of the array hold the words, in order. -/
def Stores (array : Block Slot 8) (words : List (List UInt8)) : Prop :=
  ∃ blocks, array.Holds 0 (blocks.map some) ∧ List.Forall₂ Spells blocks words

/-- Between two rounds: `words` are stored, `cur` is read of a word, `rest` is left. -/
structure At (input : CString) (v : SplitVars) (words : List (List UInt8)) (cur rest : List UInt8) :
    Prop where
  chars : ∃ pre, input.chars = pre ++ (cur ++ rest) ∧ v.i = pre.length + cur.length
  inword : v.inword = decide (cur ≠ [])
  wordLength : cur ≠ [] → v.wordLength = cur.length
  bound : v.wordLength ≤ v.i
  stores : Stores v.splitArray words
  nwords : v.nwords = words.length
  room : words.length ≤ v.arrayLength ∧ (cur ≠ [] → words.length < v.arrayLength)
  pos : 0 < v.arrayLength
  bytes : 8 * (v.arrayLength + 1) ≤ v.splitArray.bytes

structure Finished (v : SplitVars) (words : List (List UInt8)) : Prop where
  stores : Stores v.splitArray words
  nwords : v.nwords = words.length
  bytes : 8 * (words.length + 1) ≤ v.splitArray.bytes

theorem mallocAssert_roomy (hm : Roomy malloc) {α : Type} {w : Nat} (n : Nat) :
    ∃ b : Block α w, mallocAssert malloc n = .ok b ∧ n + 8 ≤ b.bytes := by
  obtain ⟨bytes, hb, hle⟩ := hm n
  exact ⟨Block.alloc bytes, by simp [mallocAssert, hb], hle⟩

/-- Storing a word: the characters just read, in the next slot. -/
theorem storeWord_spec (hm : Roomy malloc) {v : SplitVars} {words : List (List UInt8)}
    {pre word rest : List UInt8} (hchars : input.chars = pre ++ (word ++ rest))
    (hi : v.i = pre.length + word.length) (hin : v.inword = true) (hlen : v.wordLength = word.length)
    (hstores : Stores v.splitArray words) (hn : v.nwords = words.length)
    (hbytes : 8 * (words.length + 1) ≤ v.splitArray.bytes) :
    ∃ array, storeWord malloc input v =
        .ok { v with splitArray := array, inword := false, nwords := v.nwords + 1 } ∧
      array.bytes = v.splitArray.bytes ∧ Stores array (words ++ [word]) := by
  obtain ⟨blocks, hholds, hspells⟩ := hstores
  have hslots : (blocks.map some).length = words.length := by
    rw [List.length_map, hspells.length_eq]
  have hslot : 0 + (blocks.map some).length = v.nwords := by rw [hslots, hn, Nat.zero_add]
  obtain ⟨fresh, hfresh, hroom⟩ := mallocAssert_roomy hm (α := UInt8) (w := 1) v.wordLength
  -- the slot is first given the fresh block, then the block with the word in it
  obtain ⟨array₁, hstore₁, hbytes₁, hholds₁⟩ := hholds.store_end (some fresh)
    (by unfold Block.Fits; omega)
  have hcopied : (input.chars.drop (v.i - v.wordLength)).take v.wordLength = word := by
    rw [hchars, hi, hlen, Nat.add_sub_cancel, List.drop_left, List.take_left]
  have htotal : input.chars.length = pre.length + (word.length + rest.length) := by
    rw [hchars, List.length_append, List.length_append]
  have hcopy := Block.strncpy_of (b := fresh) (s := input) (n := v.wordLength) (v.i - v.wordLength)
    (by omega) (by omega)
  rw [hcopied] at hcopy
  have hterm := Block.store_write fresh 0 word 0 (by unfold Block.Fits; omega)
  rw [Nat.zero_add, ← hlen] at hterm
  let full := fresh.write 0 (word ++ [0])
  have hword : Spells full word := by
    have hnul : 0 ∉ word := fun h0 => input.noNul (by rw [hchars]; simp [h0])
    have hfits := input.fits
    let s : CString := ⟨word, hnul, by omega⟩
    exact ⟨s, rfl, Block.cstring_of s (Block.holds_write _ _ _)
      (by simp only [s, full, Block.write_bytes]; omega)⟩
  obtain ⟨array₂, hstore₂, hbytes₂, hholds₂⟩ := (Block.holds_append.mp hholds₁).1.store_end
    (some full) (by unfold Block.Fits; omega)
  rw [hslot] at hstore₁ hstore₂
  refine ⟨array₂, ?_, hbytes₂.trans hbytes₁, blocks ++ [full], ?_, ?_⟩
  · simp only [storeWord, if_pos hin, hfresh, hstore₁, Outcome.ok_bind,
      Outcome.assert_of (show v.i ≥ v.wordLength by omega), hcopy, hterm]
    rw [hstore₂]
    rfl
  · rw [List.map_append]; exact hholds₂
  · exact List.rel_append hspells (.cons hword .nil)

/-- Beginning a word: there is a slot for it. -/
theorem startWord_spec (hm : Roomy malloc) {v : SplitVars} {words : List (List UInt8)}
    (hstores : Stores v.splitArray words) (hn : v.nwords = words.length)
    (hroom : words.length ≤ v.arrayLength) (hpos : 0 < v.arrayLength)
    (hbytes : 8 * (v.arrayLength + 1) ≤ v.splitArray.bytes) :
    ∃ array length, startWord malloc v = .ok { v with
        splitArray := array, arrayLength := length, inword := true, wordLength := 1 } ∧
      Stores array words ∧ words.length < length ∧ 8 * (length + 1) ≤ array.bytes := by
  by_cases hfull : v.nwords + 1 > v.arrayLength
  · obtain ⟨bytes, hb, hle⟩ := hm (ptrSize * (v.arrayLength * splitGrowFactor))
    obtain ⟨blocks, hholds, hspells⟩ := hstores
    have hlen : (blocks.map some).length = words.length := by rw [List.length_map, hspells.length_eq]
    unfold ptrSize splitGrowFactor at hle
    refine ⟨v.splitArray.realloc bytes, v.arrayLength * splitGrowFactor, ?_,
      ⟨blocks, hholds.realloc (by omega) (by omega), hspells⟩, ?_, ?_⟩
    · simp [startWord, hfull, hb]
    · unfold splitGrowFactor; omega
    · unfold splitGrowFactor; simp only [Block.realloc]; omega
  · exact ⟨v.splitArray, v.arrayLength, by simp [startWord, hfull], hstores, by omega, hbytes⟩

/-- The separators, as the inner loop tests for them. -/
def isSep (seps : List UInt8) (c : UInt8) : Bool := seps.any (c == ·)

/-- A separator between words is passed over. -/
theorem At.skip {v : SplitVars} {words : List (List UInt8)} {c : UInt8} {rest : List UInt8}
    (h : At input v words [] (c :: rest)) : At input { v with i := v.i + 1 } words [] rest := by
  obtain ⟨pre, hchars, hi⟩ := h.chars
  exact ⟨⟨pre ++ [c], by simp [hchars], by simpa using hi⟩, h.inword, fun h0 => absurd rfl h0,
    Nat.le_succ_of_le h.bound, h.stores, h.nwords, ⟨h.room.1, fun h0 => absurd rfl h0⟩, h.pos,
      h.bytes⟩

/-- A separator behind a word closes it. -/
theorem At.close {v : SplitVars} {words : List (List UInt8)} {cur : List UInt8} {c : UInt8}
    {rest : List UInt8} {array : Block Slot 8} (h : At input v words cur (c :: rest))
    (hcur : cur ≠ [])
    (hbytes : array.bytes = v.splitArray.bytes) (hstores : Stores array (words ++ [cur])) :
    At input { v with splitArray := array, inword := false, nwords := v.nwords + 1, i := v.i + 1 }
      (words ++ [cur]) [] rest := by
  obtain ⟨pre, hchars, hi⟩ := h.chars
  have hless := h.room.2 hcur
  refine ⟨⟨pre ++ cur ++ [c], by simp [hchars], by simp [hi, Nat.add_assoc]⟩, rfl,
    fun h0 => absurd rfl h0,
    Nat.le_succ_of_le h.bound, hstores, by simp [h.nwords], ⟨?_, fun h0 => absurd rfl h0⟩, h.pos, ?_⟩
  · rw [List.length_append, List.length_singleton]; exact hless
  · rw [hbytes]; exact h.bytes

/-- A character behind a separator begins a word. -/
theorem At.begin {v : SplitVars} {words : List (List UInt8)} {c : UInt8} {rest : List UInt8}
    {array : Block Slot 8} {length : Nat} (h : At input v words [] (c :: rest))
    (hstores : Stores array words) (hroom : words.length < length)
    (hbytes : 8 * (length + 1) ≤ array.bytes) :
    At input { v with
      splitArray := array, arrayLength := length, inword := true, wordLength := 1, i := v.i + 1 }
      words [c] rest := by
  obtain ⟨pre, hchars, hi⟩ := h.chars
  exact ⟨⟨pre, by simp [hchars], by simpa using hi⟩, rfl, fun _ => rfl, Nat.le_add_left 1 _, hstores,
    h.nwords, ⟨Nat.le_of_lt hroom, fun _ => hroom⟩, Nat.zero_lt_of_lt hroom, hbytes⟩

/-- A character in a word makes it longer. -/
theorem At.extend {v : SplitVars} {words : List (List UInt8)} {cur : List UInt8} {c : UInt8}
    {rest : List UInt8} (h : At input v words cur (c :: rest)) (hcur : cur ≠ []) :
    At input { v with wordLength := v.wordLength + 1, i := v.i + 1 } words (cur ++ [c]) rest := by
  obtain ⟨pre, hchars, hi⟩ := h.chars
  refine ⟨⟨pre, by simp [hchars], by simp [hi, Nat.add_assoc]⟩, ?_, fun _ => ?_,
    Nat.add_le_add_right h.bound 1, h.stores, h.nwords, ⟨h.room.1, fun _ => h.room.2 hcur⟩, h.pos,
      h.bytes⟩
  · simp [h.inword, hcur]
  · simp [h.wordLength hcur]

theorem At.get {v : SplitVars} {words : List (List UInt8)} {cur : List UInt8} {c : UInt8}
    {rest : List UInt8} (h : At input v words cur (c :: rest)) : input.get v.i = .ok c := by
  obtain ⟨pre, hchars, hi⟩ := h.chars
  apply CString.get_of
  rw [hchars, hi, List.getElem?_append_right (by omega), Nat.add_sub_cancel_left]
  simp

theorem At.length {v : SplitVars} {words : List (List UInt8)} {cur rest : List UInt8}
    (h : At input v words cur rest) : input.chars.length = v.i + rest.length := by
  obtain ⟨pre, hchars, hi⟩ := h.chars
  rw [hchars, hi, List.length_append, List.length_append, Nat.add_assoc]

theorem strlen_sub_one (h : 0 < input.chars.length) :
    (input.strlen - 1).toNat = input.chars.length - 1 := by
  rw [UInt64.toNat_sub_of_le _ _ (by rw [UInt64.le_iff_toNat_le, input.strlen_toNat]; exact h),
    input.strlen_toNat]
  rfl

theorem splitRound_inner (hm : Roomy malloc) (seps : List UInt8) {v : SplitVars}
    {words : List (List UInt8)} {cur rest : List UInt8} {c d : UInt8}
    (h : At input v words cur (c :: d :: rest)) (hmax : input.chars.length < intMax) :
    ∃ v', splitRound malloc input seps v = .ok v' ∧
      At input v' (if isSep seps c then words ++ closeWord cur else words)
        (if isSep seps c then [] else cur ++ [c]) (d :: rest) := by
  have hlen := h.length
  have hbound := h.bound
  simp only [List.length_cons] at hlen
  have hnotlast : v.i ≠ (input.strlen - 1).toNat := by rw [strlen_sub_one (by omega)]; omega
  have hnext : intAdd v.i 1 = .ok (v.i + 1) := intAdd_of (by omega)
  simp only [splitRound, splitBody, h.get, endOfString, if_neg hnotlast, Outcome.ok_bind,
    Outcome.pure_eq, ← isSep.eq_def]
  by_cases hsep : isSep seps c
  · simp only [if_pos hsep]
    by_cases hcur : cur = []
    · subst hcur
      have hout : v.inword = false := by simp [h.inword]
      rw [closeWord, if_pos rfl, List.append_nil]
      exact ⟨_, by simp [storeWord, hout, hnext], h.skip⟩
    · obtain ⟨pre, hchars, hi⟩ := h.chars
      have hroom := h.room.2 hcur
      have hbytes := h.bytes
      obtain ⟨array, hstore, hab, has⟩ := storeWord_spec hm hchars hi (by simp [h.inword, hcur])
        (h.wordLength hcur) h.stores h.nwords (by omega)
      rw [closeWord, if_neg hcur]
      exact ⟨_, by simp [hstore, hnext], h.close hcur hab has⟩
  · simp only [if_neg hsep]
    by_cases hcur : cur = []
    · subst hcur
      have hout : v.inword = false := by simp [h.inword]
      obtain ⟨array, length, hstart, has, hless, hab⟩ :=
        startWord_spec hm h.stores h.nwords h.room.1 h.pos h.bytes
      exact ⟨_, by simp [hout, hstart, hnext], h.begin has hless hab⟩
    · have hin : v.inword = true := by simp [h.inword, hcur]
      have hlonger : intAdd v.wordLength 1 = .ok (v.wordLength + 1) := intAdd_of (by omega)
      exact ⟨_, by simp [hin, hlonger, hnext], h.extend hcur⟩

theorem splitRound_last (hm : Roomy malloc) (seps : List UInt8) {v : SplitVars}
    {words : List (List UInt8)} {cur : List UInt8} {c : UInt8} (h : At input v words cur [c])
    (hmax : input.chars.length < intMax) :
    ∃ v', splitRound malloc input seps v = .ok v' ∧ v'.i = input.chars.length + 1 ∧
      Finished v' (words ++ codeWords (isSep seps) cur [c]) := by
  have hlen := h.length
  have hbound := h.bound
  have hbytes := h.bytes
  have hroom := h.room
  simp only [List.length_cons, List.length_nil] at hlen
  have hlast : v.i = (input.strlen - 1).toNat := by rw [strlen_sub_one (by omega)]; omega
  have hnext : intAdd v.i 1 = .ok (v.i + 1) := intAdd_of (by omega)
  have hafter : intAdd (v.i + 1) 1 = .ok (v.i + 1 + 1) := intAdd_of (by omega)
  have hlonger : intAdd v.wordLength 1 = .ok (v.wordLength + 1) := intAdd_of (by omega)
  simp only [splitRound, splitBody, h.get, endOfString, if_pos hlast, hnext, hlonger, Outcome.ok_bind,
    Outcome.pure_eq, if_true]
  by_cases hcur : cur = []
  · subst hcur
    have hout : v.inword = false := by simp [h.inword]
    refine ⟨{ v with wordLength := v.wordLength + 1, i := v.i + 1 + 1 }, ?_, by simp only; omega, ?_⟩
    · simp [storeWord, hout, hafter]
    · simp only [codeWords, if_true, List.append_nil]
      exact ⟨h.stores, h.nwords, by simp only; omega⟩
  · -- the last character has become part of the word, and the round ends behind it
    obtain ⟨pre, hchars, hi⟩ := h.chars
    have hless := hroom.2 hcur
    have hwordlen := h.wordLength hcur
    obtain ⟨array, hstore, hab, has⟩ := storeWord_spec
      (v := { v with wordLength := v.wordLength + 1, i := v.i + 1 }) hm
      (show input.chars = pre ++ ((cur ++ [c]) ++ []) by rw [hchars, List.append_nil])
      (by simp [hi, Nat.add_assoc]) (by simp [h.inword, hcur])
      (by simp [hwordlen]) h.stores h.nwords (by simp only; omega)
    refine ⟨{ v with
      splitArray := array, inword := false, nwords := v.nwords + 1
      wordLength := v.wordLength + 1, i := v.i + 1 + 1 }, ?_, by simp only; omega, ?_⟩
    · rw [hstore, Outcome.ok_bind]; simp only [hafter, Outcome.ok_bind]
    · simp only [codeWords, if_neg hcur]
      refine ⟨has, by simp [h.nwords], ?_⟩
      simp only [List.length_append, List.length_singleton, hab]
      omega

/-- The loop stores `codeWords` of what is left of the string. -/
theorem splitLoop_spec (hm : Roomy malloc) {seps : List UInt8} (hmax : input.chars.length < intMax)
    (rest : List UInt8) :
    ∀ (fuel : Nat) (v : SplitVars) (words : List (List UInt8)) (cur : List UInt8),
      At input v words cur rest → rest ≠ [] → rest.length < fuel →
      ∃ v', splitLoop malloc input seps fuel v = .ok v' ∧
        Finished v' (words ++ codeWords (isSep seps) cur rest) := by
  induction rest with
  | nil => intro fuel v words cur _ hne; exact absurd rfl hne
  | cons c rest ih =>
    intro fuel v words cur h _ hfuel
    have hlen := h.length
    simp only [List.length_cons] at hlen hfuel
    obtain ⟨fuel, rfl⟩ : ∃ k, fuel = k + 2 := ⟨fuel - 2, by omega⟩
    have hcond : v.i < input.chars.length := by omega
    cases rest with
    | nil =>
      obtain ⟨v', hround, hi, hfin⟩ := splitRound_last hm seps h hmax
      refine ⟨v', ?_, hfin⟩
      rw [splitLoop, whileLoop_round (by simp [hcond]) hround, whileLoop_exit (by simp [hi])]
    | cons d rest =>
      obtain ⟨v', hround, hat⟩ := splitRound_inner hm seps h hmax
      obtain ⟨v'', hloop, hfin⟩ := ih (fuel + 1) v' _ _ hat (by simp) (by omega)
      refine ⟨v'', by rw [splitLoop, whileLoop_round (by simp [hcond]) hround]; exact hloop, ?_⟩
      rw [codeWords]
      by_cases hsep : isSep seps c <;> simpa [hsep] using hfin

/-! ## The whole function -/

def sepString (separators : Option CString) : CString := separators.getD defaultSep

theorem copySeps_spec (hm : Roomy malloc) {separators : Option CString}
    (hlen : ∀ s ∈ separators, s.chars.length ≤ maxSeparator) :
    ∃ seps, copySeps malloc separators = .ok seps ∧ seps.cstring = .ok (sepString separators) := by
  have hcopy : ∀ (b : Block UInt8 1) (s : CString), s.chars.length < b.bytes →
      ∃ seps, b.strcpy s = .ok seps ∧ seps.cstring = .ok s := fun b s hb =>
    ⟨b.write 0 (s.chars ++ [0]), by simp [Block.strcpy, Outcome.require_of hb],
      Block.cstring_of s (Block.holds_write _ _ _) hb⟩
  cases separators with
  | none =>
    obtain ⟨b, hb, hroom⟩ := mallocAssert_roomy hm (α := UInt8) (w := 1) 5
    obtain ⟨seps, hseps, hstr⟩ := hcopy b defaultSep (Nat.lt_of_lt_of_le (by decide) hroom)
    exact ⟨seps, by simp [copySeps, hb, hseps], hstr⟩
  | some s =>
    have hs := hlen s rfl
    obtain ⟨b, hb, hroom⟩ :=
      mallocAssert_roomy hm (α := UInt8) (w := 1) (min s.chars.length maxSeparator)
    obtain ⟨seps, hseps, hstr⟩ := hcopy b s (by omega)
    exact ⟨seps, by simp [copySeps, hb, hseps], hstr⟩

theorem stringsFrom_spec {array : Block Slot 8} {blocks : List (Block UInt8 1)}
    {words : List (List UInt8)} (hspells : List.Forall₂ Spells blocks words) :
    ∀ (fuel k : Nat), array.Holds k (blocks.map some ++ [none]) →
      8 * (k + words.length + 1) ≤ array.bytes →
      words.length < fuel →
      ∃ ss, stringsFrom array fuel k = .ok ss ∧ ss.map CString.chars = words := by
  induction hspells with
  | nil =>
    intro fuel k hholds hbytes hfuel
    obtain ⟨fuel, rfl⟩ : ∃ n, fuel = n + 1 := ⟨fuel - 1, by omega⟩
    have hload : array.load k = .ok none :=
      Block.load_of (by unfold Block.Fits; simp at hbytes; omega) (Block.holds_cons.mp hholds).1
    exact ⟨[], by simp [stringsFrom, hload], rfl⟩
  | @cons b cs blocks words hb hrest ih =>
    intro fuel k hholds hbytes hfuel
    obtain ⟨fuel, rfl⟩ : ∃ n, fuel = n + 1 := ⟨fuel - 1, by omega⟩
    simp only [List.length_cons] at hbytes hfuel
    obtain ⟨hcell, htail⟩ := Block.holds_cons.mp hholds
    have hload : array.load k = .ok (some b) := Block.load_of (by unfold Block.Fits; omega) hcell
    obtain ⟨s, rfl, hs⟩ := hb
    obtain ⟨ss, hss, hmap⟩ := ih fuel (k + 1) htail (by omega) (by omega)
    exact ⟨s :: ss, by simp [stringsFrom, hload, hs, hss], by simp [hmap]⟩

theorem splitLoop_whole (hm : Roomy malloc) {seps : List UInt8} (hmax : input.chars.length < intMax)
    {slots : Block Slot 8} (hroom : ptrSize * splitSizeInitial + 8 ≤ slots.bytes) :
    ∃ v', splitLoop malloc input seps (input.strlen.toNat + 1)
        ⟨slots, splitSizeInitial, 0, false, 0, 0⟩ = .ok v' ∧
      Finished v' (codeWords (isSep seps) [] input.chars) := by
  let v : SplitVars := ⟨slots, splitSizeInitial, 0, false, 0, 0⟩
  have hat : At input v [] [] input.chars :=
    ⟨⟨[], rfl, rfl⟩, rfl, fun h0 => absurd rfl h0, Nat.le_refl 0, ⟨[], Block.holds_nil _ _, .nil⟩,
      rfl,
      ⟨Nat.zero_le _, fun h0 => absurd rfl h0⟩, Nat.zero_lt_succ 7, hroom⟩
  by_cases hne : input.chars = []
  · refine ⟨v, by rw [splitLoop, whileLoop_exit (by simp [hne])], ?_⟩
    rw [hne]
    exact ⟨hat.stores, rfl, by have := hat.bytes; simp [codeWords]; omega⟩
  · exact splitLoop_spec hm hmax input.chars _ v [] [] hat hne (by simp)

/-- **What `msplit` returns**: an array of the words its loop stores. -/
theorem msplit_spec (hm : Roomy malloc) {separators : Option CString}
    (hlen : ∀ s ∈ separators, s.chars.length ≤ maxSeparator) (hmax : input.chars.length < intMax) :
    ∃ array ss, msplit malloc input separators = .ok array ∧ strings array = .ok ss ∧
      ss.map CString.chars = codeWords (isSep (sepString separators).chars) [] input.chars := by
  obtain ⟨slots, hslots, hroom⟩ := mallocAssert_roomy hm (α := Slot) (w := 8)
    (ptrSize * splitSizeInitial)
  obtain ⟨seps, hseps, hstr⟩ := copySeps_spec hm hlen
  obtain ⟨v', hloop, ⟨blocks, hholds, hspells⟩, hn, hbytes⟩ :=
    splitLoop_whole hm hmax hroom
  have hslot : 0 + (blocks.map some).length = v'.nwords := by
    rw [List.length_map, hspells.length_eq, hn, Nat.zero_add]
  obtain ⟨array, hstore, hab, hend⟩ := hholds.store_end (none : Slot) (by unfold Block.Fits; omega)
  rw [hslot] at hstore
  obtain ⟨ss, hss, hmap⟩ := stringsFrom_spec hspells (array.bytes + 1) 0 hend (by omega) (by omega)
  refine ⟨array, ss, ?_, hss, hmap⟩
  simp only [msplit, hslots, hseps, hstr, Outcome.ok_bind]
  rw [hloop]
  exact hstore

/-! ## Strings that are too long -/

theorem storeWord_ok {v v' : SplitVars} (h : storeWord malloc input v = .ok v') :
    ∃ array, v' = { v with
      splitArray := array, inword := false, nwords := v.nwords + v.inword.toNat } := by
  unfold storeWord at h
  split at h
  · next hin =>
    obtain ⟨_, _, h⟩ := Outcome.bind_eq_ok.mp h
    obtain ⟨_, _, h⟩ := Outcome.bind_eq_ok.mp h
    obtain ⟨_, _, h⟩ := Outcome.bind_eq_ok.mp h
    obtain ⟨_, _, h⟩ := Outcome.bind_eq_ok.mp h
    obtain ⟨_, _, h⟩ := Outcome.bind_eq_ok.mp h
    obtain ⟨array, _, h⟩ := Outcome.bind_eq_ok.mp h
    cases h
    exact ⟨array, by rw [hin]; rfl⟩
  · next hout =>
    cases h
    obtain ⟨array, length, nwords, inword, wordLength, i⟩ := v
    obtain rfl := eq_false_of_ne_true hout
    exact ⟨array, rfl⟩

theorem startWord_ok {v v' : SplitVars} (h : startWord malloc v = .ok v') :
    ∃ array length, v' = { v with
        splitArray := array, arrayLength := length, inword := true, wordLength := 1 } ∧
      (v.nwords < v.arrayLength ∧ length = v.arrayLength ∨
        v.arrayLength ≤ v.nwords ∧ length = v.arrayLength * splitGrowFactor) := by
  simp only [startWord] at h
  split at h
  · next hfull =>
    split at h <;> cases h
    exact ⟨_, _, rfl, .inr ⟨by omega, rfl⟩⟩
  · next hroom =>
    cases h
    exact ⟨_, _, rfl, .inl ⟨by omega, rfl⟩⟩

theorem storeWord_i {v v' : SplitVars} (h : storeWord malloc input v = .ok v') : v'.i = v.i := by
  obtain ⟨_, rfl⟩ := storeWord_ok h
  rfl

theorem startWord_i {v v' : SplitVars} (h : startWord malloc v = .ok v') : v'.i = v.i := by
  obtain ⟨_, _, rfl, _⟩ := startWord_ok h
  rfl

/-- A round that goes through has kept `i` within `int`: it ends inside the string, or two
past its last character. -/
theorem splitRound_i {seps : List UInt8} {v v' : SplitVars} (hi : v.i < input.chars.length)
    (h : splitRound malloc input seps v = .ok v') :
    v'.i < input.chars.length ∨ input.chars.length < intMax := by
  obtain ⟨u, hbody, h⟩ := Outcome.bind_eq_ok.mp h
  obtain ⟨i, hnext, h⟩ := Outcome.bind_eq_ok.mp h
  obtain ⟨hfit, rfl⟩ := intAdd_eq_ok.mp hnext
  cases h
  obtain ⟨c, _, hbody⟩ := Outcome.bind_eq_ok.mp hbody
  obtain ⟨⟨found, w⟩, hend, hbody⟩ := Outcome.bind_eq_ok.mp hbody
  have huw : u.i = w.i := by
    simp only at hbody
    split at hbody
    · exact storeWord_i hbody
    · split at hbody
      · exact startWord_i hbody
      · obtain ⟨_, _, hbody⟩ := Outcome.bind_eq_ok.mp hbody
        cases hbody
        rfl
  unfold endOfString at hend
  rw [strlen_sub_one (by omega)] at hend
  split at hend
  · obtain ⟨_, _, hend⟩ := Outcome.bind_eq_ok.mp hend
    obtain ⟨i, hi', hend⟩ := Outcome.bind_eq_ok.mp hend
    obtain ⟨_, rfl⟩ := intAdd_eq_ok.mp hi'
    cases hend
    simp only at huw
    omega
  · cases hend
    simp only
    omega

/-- The loop does not end on a string for which the counter would overflow. -/
theorem splitLoop_short {seps : List UInt8} {fuel : Nat} {v v' : SplitVars} (hi : v.i = 0)
    (h : splitLoop malloc input seps fuel v = .ok v') : input.chars.length < intMax := by
  by_contra hlong
  have hpos : v.i < input.chars.length := by unfold intMax at hlong; omega
  -- then no round can leave the string
  have hkeep := whileLoop_keeps (fun v => v.i < input.chars.length)
    (fun v v' hi _ hround => (splitRound_i hi hround).resolve_right hlong) _ _ _ hpos h
  have hexit := whileLoop_ends h
  simp only [Outcome.pure_eq, Outcome.ok.injEq, decide_eq_false_iff_not,
    CString.strlen_toNat] at hexit
  exact hexit hkeep

/-- Such a string is not split at all. -/
theorem msplit_short {separators : Option CString} {array : Block Slot 8}
    (h : msplit malloc input separators = .ok array) : input.chars.length < intMax := by
  obtain ⟨_, _, h⟩ := Outcome.bind_eq_ok.mp h
  obtain ⟨_, _, h⟩ := Outcome.bind_eq_ok.mp h
  obtain ⟨_, _, h⟩ := Outcome.bind_eq_ok.mp h
  obtain ⟨_, hloop, _⟩ := Outcome.bind_eq_ok.mp h
  exact splitLoop_short rfl hloop

/-- **When `msplit` returns the words of its input**: exactly when the length leaves `i`
within `int` and the string ends cleanly. A separator right behind the last word goes into
the word, and a last word of one character is lost. -/
theorem msplit_splits_iff (hm : Roomy malloc) (separators : Option CString)
    (hlen : ∀ s ∈ separators, s.chars.length ≤ maxSeparator) (input : CString) :
    (∃ array ss, msplit malloc input separators = .ok array ∧ strings array = .ok ss ∧
      ss.map CString.chars = splitWords (isSep (sepString separators).chars) input.chars) ↔
    (input.chars.length < intMax ∧ EndsCleanly (isSep (sepString separators).chars) input.chars) := by
  constructor
  · intro hwords
    obtain ⟨array, ss, hsplit, hss, hwords⟩ := hwords
    have hmax := msplit_short hsplit
    obtain ⟨array', ss', hsplit', hss', hwords'⟩ := msplit_spec hm hlen hmax
    rw [hsplit] at hsplit'
    cases hsplit'
    rw [hss] at hss'
    cases hss'
    exact ⟨hmax, (codeWords_eq_iff _).mp (hwords'.symm.trans hwords)⟩
  · intro hcond
    obtain ⟨hmax, hclean⟩ := hcond
    obtain ⟨array, ss, hsplit, hss, hwords⟩ := msplit_spec hm hlen hmax
    exact ⟨array, ss, hsplit, hss, hwords.trans ((codeWords_eq_iff _).mpr hclean)⟩

theorem roomy_spare : Roomy fun n => some (n + 8) := fun n => ⟨n + 8, rfl, Nat.le_refl _⟩

theorem msplit_splits_two :
    ∃ array ss, msplit (fun n => some (n + 8))
        ⟨['a', 'b', ' ', 'c', 'd'].map Char.toUInt8, by decide, by decide⟩ none = .ok array ∧
      strings array = .ok ss ∧
      ss.map CString.chars = splitWords (isSep defaultSep.chars)
        (['a', 'b', ' ', 'c', 'd'].map Char.toUInt8) :=
  (msplit_splits_iff roomy_spare none (by simp)
    ⟨['a', 'b', ' ', 'c', 'd'].map Char.toUInt8, by decide, by decide⟩).mpr ⟨by decide, by decide⟩

/-- `"ab "` is split into `"ab "`. -/
theorem msplit_trailing_separator :
    ¬ ∀ (input : CString) (separators : Option CString),
      (∀ s ∈ separators, s.chars.length ≤ maxSeparator) →
      ∃ array ss, msplit (fun n => some (n + 8)) input separators = .ok array ∧
        strings array = .ok ss ∧
        ss.map CString.chars = splitWords (isSep (sepString separators).chars) input.chars := by
  intro hall
  let input : CString := ⟨['a', 'b', ' '].map Char.toUInt8, by decide, by decide⟩
  obtain ⟨array, ss, hsplit, hss, hwords⟩ := hall input none (by simp)
  obtain ⟨array', ss', hsplit', hss', hwords'⟩ :=
    @msplit_spec _ input roomy_spare none (by simp) (by decide)
  rw [hsplit] at hsplit'
  cases hsplit'
  rw [hss] at hss'
  cases hss'
  have hclean := (codeWords_eq_iff _).mp (hwords'.symm.trans hwords)
  revert hclean
  decide

end Mikelibc.Split
