import Mikelibc.Lib.Agree
import Mikelibc.Lib.Heap
import Mikelibc.Split.Code

/-! # `msplit` and `free_msplit` with pointers

In `Split.Code` a slot of the array is a string. Here it is a pointer, and every `malloc`,
`realloc` and `free` is seen. The two agree (`msplitOnHeap_agree`). -/
namespace Mikelibc.Split
open CSem

/-! ## The code -/

/-- What is allocated: characters, or pointers, where `none` is `NULL`. -/
inductive Object where
  | chars (b : Block UInt8 1)
  | slots (b : Block (Option Int) 8)

abbrev Heap := Handles Object

def charsAt (heap : Heap) (p : Int) : Outcome (Block UInt8 1) :=
  match heap.value p with
  | some (.chars b) => return b
  | _ => .fault

def slotsAt (heap : Heap) (p : Int) : Outcome (Block (Option Int) 8) :=
  match heap.value p with
  | some (.slots b) => return b
  | _ => .fault

/-- The memory that `p` points to is written. -/
def setAt (heap : Heap) (p : Int) (x : Object) : Heap := heap.adjust p fun _ => x

structure HeapVars where
  heap : Heap
  splitArray : Int
  arrayLength : Nat
  nwords : Nat
  inword : Bool
  wordLength : Nat
  i : Nat

variable (malloc : Nat → Option Nat)

def mallocOnHeap (object : Nat → Object) (n : Nat) (heap : Heap) : Outcome (Int × Heap) :=
  match malloc n with
  | some bytes => return (heap.next, heap.issue (object bytes))
  | none => .abort

def mallocChars : Nat → Heap → Outcome (Int × Heap) := mallocOnHeap malloc fun n => .chars (.alloc n)

def mallocSlots : Nat → Heap → Outcome (Int × Heap) := mallocOnHeap malloc fun n => .slots (.alloc n)

def copySepsOnHeap (separators : Option CString) (heap : Heap) : Outcome (Int × Heap) :=
  match separators with
  | none => do
    let (seps, heap) ← mallocChars malloc 5 heap
    let b ← charsAt heap seps
    let b ← b.strcpy defaultSep
    return (seps, setAt heap seps (.chars b))
  | some s => do
    let (seps, heap) ← mallocChars malloc (min s.chars.length maxSeparator) heap
    let b ← charsAt heap seps
    let b ← b.strcpy s
    return (seps, setAt heap seps (.chars b))

def storeWordOnHeap (inputString : CString) (v : HeapVars) : Outcome HeapVars :=
  if v.inword then do
    let (word, heap) ← mallocChars malloc v.wordLength v.heap
    let slots ← slotsAt heap v.splitArray
    let slots ← slots.store v.nwords (some word)
    let heap := setAt heap v.splitArray (.slots slots)
    Outcome.assert (v.i ≥ v.wordLength)
    let b ← charsAt heap word
    let b ← b.strncpy inputString (v.i - v.wordLength) v.wordLength
    let b ← b.store v.wordLength 0
    return { v with heap := setAt heap word (.chars b), inword := false, nwords := v.nwords + 1 }
  else return v

/-- `if (! inword) { ... }`: `realloc` moves what the array holds. -/
def startWordOnHeap (v : HeapVars) : Outcome HeapVars :=
  let v := { v with inword := true, wordLength := 1 }
  if v.nwords + 1 > v.arrayLength then do
    let arrayLength := v.arrayLength * splitGrowFactor
    match malloc (ptrSize * arrayLength) with
    | some bytes =>
      let slots ← slotsAt v.heap v.splitArray
      let heap ← v.heap.release v.splitArray
      return { v with
        heap := heap.issue (.slots (slots.realloc bytes))
        splitArray := heap.next
        arrayLength := arrayLength }
    | none => .abort
  else return v

def endOfStringOnHeap (inputString : CString) (foundSep : Bool) (v : HeapVars) :
    Outcome (Bool × HeapVars) :=
  if v.i = (inputString.strlen - 1).toNat then do
    let wordLength ← intAdd v.wordLength 1
    let i ← intAdd v.i 1
    return (true, { v with wordLength := wordLength, i := i })
  else return (foundSep, v)

def splitBodyOnHeap (inputString : CString) (seps : List UInt8) (v : HeapVars) :
    Outcome HeapVars := do
  let c ← inputString.get v.i
  let (foundSep, v) ← endOfStringOnHeap inputString (seps.any (c == ·)) v
  if foundSep then storeWordOnHeap malloc inputString v
  else if v.inword = false then startWordOnHeap malloc v
  else return { v with wordLength := ← intAdd v.wordLength 1 }

def splitRoundOnHeap (inputString : CString) (seps : List UInt8) (v : HeapVars) :
    Outcome HeapVars := do
  let v ← splitBodyOnHeap malloc inputString seps v
  return { v with i := ← intAdd v.i 1 }

def msplitOnHeap (inputString : CString) (separators : Option CString) (heap : Heap) :
    Outcome (Int × Heap) := do
  let (splitArray, heap) ← mallocSlots malloc (ptrSize * splitSizeInitial) heap
  let (seps, heap) ← copySepsOnHeap malloc separators heap
  let b ← charsAt heap seps
  let s ← b.cstring
  let v ← whileLoop (fun v => return decide (v.i < inputString.strlen.toNat))
    (splitRoundOnHeap malloc inputString s.chars) (inputString.strlen.toNat + 1) {
      heap := heap
      splitArray := splitArray
      arrayLength := splitSizeInitial
      nwords := 0
      inword := false
      wordLength := 0
      i := 0 }
  let heap ← v.heap.release seps
  let slots ← slotsAt heap v.splitArray
  let slots ← slots.store v.nwords none
  return (v.splitArray, setAt heap v.splitArray (.slots slots))

/-- The loop of `free_msplit`, from the slot with number `i` on. -/
def freeWords (splitString : Int) : Nat → Nat → Heap → Outcome Heap
  | 0, _, _ => .hang
  | fuel + 1, i, heap => do
    let slots ← slotsAt heap splitString
    match ← slots.load i with
    | none => return heap
    | some word =>
      let heap ← heap.release word
      freeWords splitString fuel (i + 1) heap

def freeMsplitOnHeap (fuel : Nat) (splitString : Int) (heap : Heap) : Outcome Heap := do
  let heap ← freeWords splitString fuel 0 heap
  heap.release splitString

def stringsOnHeap (heap : Heap) (slots : Block (Option Int) 8) : Nat → Nat → Outcome (List CString)
  | 0, _ => .fault
  | fuel + 1, k => do
    match ← slots.load k with
    | none => return []
    | some word =>
      let b ← charsAt heap word
      let s ← b.cstring
      let ss ← stringsOnHeap heap slots fuel (k + 1)
      return s :: ss

/-- The strings that a `char **` points to. -/
def stringsAt (heap : Heap) (p : Int) : Outcome (List CString) := do
  let slots ← slotsAt heap p
  stringsOnHeap heap slots (slots.bytes + 1) 0

/-! ## The same words on both sides -/

/-- The first slots hold pointers to these blocks in the one array, and the blocks in the other. -/
structure SameWords (heap : Heap) (slots : Block (Option Int) 8) (array : Block Slot 8)
    (words : List Int) : Prop where
  bytes : slots.bytes = array.bytes
  fits : 8 * words.length ≤ slots.bytes
  word : ∀ (i : Nat) (p : Int), words[i]? = some p → slots.cell i = some (some p) ∧
    ∃ b, array.cell i = some (some b) ∧ heap.value p = some (.chars b)

variable {heap heap' : Heap} {slots : Block (Option Int) 8} {array : Block Slot 8}
  {words : List Int} {p : Int}

theorem setAt_self {x y : Object} (h : heap.value p = some y) :
    (setAt heap p x).value p = some x := by
  rw [setAt, Handles.value_adjust, if_pos rfl, h]
  rfl

theorem setAt_ne {x : Object} {q : Int} (h : q ≠ p) : (setAt heap p x).value q = heap.value q := by
  rw [setAt, Handles.value_adjust, if_neg h]

theorem issue_self {x : Object} : (heap.issue x).value heap.next = some x := by
  rw [Handles.value_issue, if_pos rfl]

theorem issue_ne {x : Object} {q : Int} (h : q ≠ heap.next) :
    (heap.issue x).value q = heap.value q := by
  rw [Handles.value_issue, if_neg h]

theorem SameWords.start (heap : Heap) (bytes : Nat) :
    SameWords heap (.alloc bytes) (.alloc bytes) [] := ⟨rfl, Nat.zero_le _, nofun⟩

theorem SameWords.congr (h : SameWords heap slots array words)
    (hsame : ∀ p ∈ words, heap'.value p = heap.value p) : SameWords heap' slots array words :=
  ⟨h.bytes, h.fits, fun i p hp => by
    rw [hsame p (List.mem_of_getElem? hp)]
    exact h.word i p hp⟩

theorem SameWords.realloc (h : SameWords heap slots array words) {bytes : Nat}
    (hroom : 8 * words.length ≤ bytes) :
    SameWords heap (slots.realloc bytes) (array.realloc bytes) words := by
  refine ⟨rfl, hroom, fun i p hp => ?_⟩
  have hi := (List.getElem?_eq_some_iff.mp hp).1
  have hfits := h.fits
  have hold : 8 * (i + 1) ≤ min slots.bytes bytes := by omega
  have hold' : 8 * (i + 1) ≤ min array.bytes bytes := h.bytes ▸ hold
  simp only [Block.realloc, if_pos hold, if_pos hold']
  exact h.word i p hp

/-- The slot behind the words is written, or is past the end, on both sides. -/
theorem SameWords.store (h : SameWords heap slots array words) (x : Option Int) (y : Slot) :
    (slots.store words.length x).Agree (fun slots' array' => 8 * (words.length + 1) ≤ slots.bytes ∧
        slots' = { slots with cell := Function.update slots.cell words.length (some x) } ∧
        array' = { array with cell := Function.update array.cell words.length (some y) })
      (array.store words.length y) := by
  have hiff : array.Fits words.length ↔ slots.Fits words.length := by
    rw [Block.Fits, Block.Fits, h.bytes]
  by_cases hfit : slots.Fits words.length
  · rw [Block.store_of x hfit, Block.store_of y (hiff.mpr hfit)]
    exact .ok ⟨hfit, rfl, rfl⟩
  · rw [Block.store, Block.store, Outcome.require_of_not hfit,
      Outcome.require_of_not (mt hiff.mp hfit)]
    exact .fault

theorem SameWords.snoc (h : SameWords heap slots array words) {b : Block UInt8 1}
    (hfits : 8 * (words.length + 1) ≤ slots.bytes) (hb : heap.value p = some (.chars b)) :
    SameWords heap { slots with cell := Function.update slots.cell words.length (some (some p)) }
      { array with cell := Function.update array.cell words.length (some (some b)) }
      (words ++ [p]) := by
  refine ⟨h.bytes, by rwa [List.length_append], fun i q hq => ?_⟩
  by_cases hi : i = words.length
  · subst hi
    rw [List.getElem?_concat_length] at hq
    cases hq
    exact ⟨Function.update_self _ _ _, b, Function.update_self _ _ _, hb⟩
  · have hlt : i < words.length := by
      have := (List.getElem?_eq_some_iff.mp hq).1
      rw [List.length_append, List.length_singleton] at this
      omega
    rw [List.getElem?_append_left hlt] at hq
    simp only [Function.update_of_ne hi]
    exact h.word i q hq

/-! ## The loop on both sides -/

/-- The variables with pointers stand for the ones with blocks; what has been taken since `heap₀` is
the array, the separators and the words. -/
structure Mirrors (heap₀ : Heap) (seps : Int) (v : HeapVars) (w : SplitVars) (words : List Int) :
    Prop where
  arrayLength : v.arrayLength = w.arrayLength
  nwords : v.nwords = w.nwords
  inword : v.inword = w.inword
  wordLength : v.wordLength = w.wordLength
  i : v.i = w.i
  count : words.length = w.nwords
  room : w.nwords + w.inword.toNat ≤ w.arrayLength ∧ 0 < w.arrayLength
  owns : Handles.Owns heap₀ v.heap (v.splitArray :: seps :: words)
  array : ∃ slots, v.heap.value v.splitArray = some (.slots slots) ∧
    SameWords v.heap slots w.splitArray words

variable {malloc} {heap₀ : Heap} {seps : Int} {v : HeapVars} {w : SplitVars} {input : CString}

theorem slotsAt_of (h : heap.value p = some (.slots slots)) : slotsAt heap p = .ok slots := by
  rw [slotsAt, h]
  rfl

theorem charsAt_of {b : Block UInt8 1} (h : heap.value p = some (.chars b)) :
    charsAt heap p = .ok b := by
  rw [charsAt, h]
  rfl

/-- A word has an address of its own. -/
theorem Mirrors.word_ne (h : Mirrors heap₀ seps v w words) {p : Int} (hp : p ∈ words) :
    p ≠ v.splitArray ∧ p ≠ seps := by
  have hnodup := h.owns.nodup
  rw [List.nodup_cons, List.nodup_cons, List.mem_cons, not_or] at hnodup
  exact ⟨fun he => hnodup.1.2 (he ▸ hp), fun he => hnodup.2.1 (he ▸ hp)⟩

/-- A new word, in a block of its own at an address that nothing else has. -/
theorem Mirrors.stored (h : Mirrors heap₀ seps v w words) (hin : w.inword = true)
    (hsame : SameWords v.heap slots w.splitArray words)
    (hfits : 8 * (words.length + 1) ≤ slots.bytes) (x : Object) (b : Block UInt8 1) :
    Mirrors heap₀ seps { v with
      heap := setAt (setAt (v.heap.issue x) v.splitArray (.slots { slots with
        cell := Function.update slots.cell words.length (some (some v.heap.next)) }))
        v.heap.next (.chars b)
      inword := false
      nwords := words.length + 1 } { w with
      splitArray := { w.splitArray with
        cell := Function.update w.splitArray.cell words.length (some (some b)) }
      inword := false
      nwords := words.length + 1 } (words ++ [v.heap.next]) := by
  have hne : v.splitArray ≠ v.heap.next := Int.ne_of_lt (h.owns.lt List.mem_cons_self)
  have hperm : (v.heap.next :: v.splitArray :: seps :: words).Perm
      (v.splitArray :: seps :: (words ++ [v.heap.next])) :=
    (List.perm_append_singleton v.heap.next (v.splitArray :: seps :: words)).symm
  have howns := ((h.owns.take x).adjust (List.mem_cons_of_mem _ List.mem_cons_self)
    (fun _ => .slots { slots with
      cell := Function.update slots.cell words.length (some (some v.heap.next)) })).adjust
    List.mem_cons_self fun _ => .chars b
  refine ⟨h.arrayLength, rfl, rfl, h.wordLength, h.i, List.length_append, ?_, howns.perm hperm,
    _, ?_, SameWords.snoc (hsame.congr fun p hp => ?_) hfits ?_⟩
  · have hroom := h.room
    rw [hin, Bool.toNat_true, ← h.count] at hroom
    exact hroom
  · obtain ⟨slots', harray, _⟩ := h.array
    rw [setAt_ne hne, setAt_self ((issue_ne hne).trans harray)]
  · have hp' : p ≠ v.heap.next :=
      Int.ne_of_lt (h.owns.lt (List.mem_cons_of_mem _ (List.mem_cons_of_mem _ hp)))
    rw [setAt_ne hp', setAt_ne (h.word_ne hp).1, issue_ne hp']
  · exact setAt_self ((setAt_ne hne.symm).trans issue_self)

theorem storeWord_agree (h : Mirrors heap₀ seps v w words) :
    (storeWordOnHeap malloc input v).Agree (fun v' w' => ∃ words, Mirrors heap₀ seps v' w' words)
      (storeWord malloc input w) := by
  obtain ⟨slots, harray, hsame⟩ := h.array
  unfold storeWordOnHeap storeWord mallocChars mallocOnHeap mallocAssert
  rw [h.inword, h.wordLength, h.nwords, h.i, ← h.count]
  cases hin : w.inword with
  | false => exact .ok ⟨words, h⟩
  | true =>
    simp only [if_true]
    cases hmalloc : malloc w.wordLength with
    | none => exact .abort
    | some bytes =>
      simp only [Outcome.pure_eq, Outcome.ok_bind]
      have hne : v.splitArray ≠ v.heap.next := Int.ne_of_lt (h.owns.lt List.mem_cons_self)
      have harray' : (v.heap.issue (.chars (.alloc bytes))).value v.splitArray =
          some (.slots slots) := (issue_ne hne).trans harray
      rw [slotsAt_of harray', Outcome.ok_bind]
      refine (hsame.store _ _).bind ?_
      rintro slots' array' ⟨hfits, rfl, rfl⟩
      refine (Outcome.Agree.same _).bind fun _ _ _ => ?_
      have hword : ∀ x, (setAt (v.heap.issue (.chars (.alloc bytes))) v.splitArray x).value
          v.heap.next = some (.chars (.alloc bytes)) := fun x =>
        (setAt_ne hne.symm).trans issue_self
      rw [charsAt_of (hword _), Outcome.ok_bind]
      refine (Outcome.Agree.same _).bind ?_
      rintro b _ ⟨rfl, _⟩
      refine (Outcome.Agree.same _).bind ?_
      rintro b' _ ⟨rfl, _⟩
      rw [Block.store_of _ (by rw [Block.Fits, ← hsame.bytes]; exact hfits)]
      simp only [Outcome.ok_bind, Function.update_idem]
      have hstored := h.stored hin hsame hfits (.chars (.alloc bytes)) b'
      rw [h.wordLength, h.i] at hstored
      exact .ok ⟨_, hstored⟩

/-- The array may move when it grows. -/
theorem Mirrors.grown (h : Mirrors heap₀ seps v w words)
    (hsame : SameWords v.heap slots w.splitArray words) (hfull : w.nwords + 1 > w.arrayLength)
    {bytes : Nat} (hbytes : ptrSize * (w.arrayLength * splitGrowFactor) ≤ bytes) :
    v.heap.release v.splitArray = .ok (v.heap.drop v.splitArray) ∧
    Mirrors heap₀ seps { v with
      heap := (v.heap.drop v.splitArray).issue (.slots (slots.realloc bytes))
      splitArray := v.heap.next
      arrayLength := w.arrayLength * splitGrowFactor
      inword := true
      wordLength := 1 } { w with
      splitArray := w.splitArray.realloc bytes
      arrayLength := w.arrayLength * splitGrowFactor
      inword := true
      wordLength := 1 } words := by
  obtain ⟨hrelease, howns⟩ := h.owns.give
  obtain ⟨hroom, hpos⟩ := h.room
  have hcount := h.count
  unfold ptrSize splitGrowFactor at hbytes
  refine ⟨hrelease, rfl, h.nwords, rfl, rfl, h.i, h.count, ?_, howns.take _, _, ?_,
    (hsame.realloc (by omega)).congr fun p hp => ?_⟩
  · simp only [splitGrowFactor, Bool.toNat_true]
    omega
  · rw [Handles.value_issue, Handles.next_drop, if_pos rfl]
  · have hlt : p ≠ v.heap.next :=
      Int.ne_of_lt (h.owns.lt (List.mem_cons_of_mem _ (List.mem_cons_of_mem _ hp)))
    rw [Handles.value_issue, Handles.next_drop, if_neg hlt, Handles.value_drop,
      if_neg (h.word_ne hp).1]

theorem startWord_agree (hm : ∀ n bytes, malloc n = some bytes → n ≤ bytes)
    (h : Mirrors heap₀ seps v w words) :
    (startWordOnHeap malloc v).Agree (fun v' w' => ∃ words, Mirrors heap₀ seps v' w' words)
      (startWord malloc w) := by
  obtain ⟨slots, harray, hsame⟩ := h.array
  unfold startWordOnHeap startWord
  simp only [h.nwords, h.arrayLength]
  by_cases hfull : w.nwords + 1 > w.arrayLength
  · rw [if_pos hfull, if_pos hfull]
    cases hmalloc : malloc (ptrSize * (w.arrayLength * splitGrowFactor)) with
    | none => exact .abort
    | some bytes =>
      obtain ⟨hrelease, hgrown⟩ := h.grown hsame hfull (hm _ _ hmalloc)
      simp only [slotsAt_of harray, hrelease, Outcome.ok_bind]
      rw [h.nwords] at hgrown
      exact .ok ⟨words, hgrown⟩
  · rw [if_neg hfull, if_neg hfull]
    refine .ok ⟨words, rfl, rfl, rfl, rfl, h.i, h.count, ?_, h.owns, slots, harray, hsame⟩
    have hroom := h.room.2
    simp only [Bool.toNat_true]
    omega

theorem Mirrors.setLength (h : Mirrors heap₀ seps v w words) (n : Nat) :
    Mirrors heap₀ seps { v with wordLength := n } { w with wordLength := n } words :=
  ⟨h.arrayLength, h.nwords, h.inword, rfl, h.i, h.count, h.room, h.owns, h.array⟩

theorem Mirrors.setI (h : Mirrors heap₀ seps v w words) (n : Nat) :
    Mirrors heap₀ seps { v with i := n } { w with i := n } words :=
  ⟨h.arrayLength, h.nwords, h.inword, h.wordLength, rfl, h.count, h.room, h.owns, h.array⟩

theorem endOfString_agree (h : Mirrors heap₀ seps v w words) (foundSep : Bool) :
    (endOfStringOnHeap input foundSep v).Agree
      (fun r r' => r.1 = r'.1 ∧ Mirrors heap₀ seps r.2 r'.2 words)
      (endOfString input foundSep w) := by
  unfold endOfStringOnHeap endOfString
  rw [h.wordLength, h.i]
  split
  · refine (Outcome.Agree.same _).bind ?_
    rintro wordLength _ ⟨rfl, _⟩
    refine (Outcome.Agree.same _).bind ?_
    rintro i _ ⟨rfl, _⟩
    exact .ok ⟨rfl, (h.setLength wordLength).setI i⟩
  · exact .ok ⟨rfl, h⟩

theorem splitBody_agree (hm : ∀ n bytes, malloc n = some bytes → n ≤ bytes) (chars : List UInt8)
    (h : Mirrors heap₀ seps v w words) :
    (splitBodyOnHeap malloc input chars v).Agree
      (fun v' w' => ∃ words, Mirrors heap₀ seps v' w' words) (splitBody malloc input chars w) := by
  unfold splitBodyOnHeap splitBody
  rw [h.i]
  refine (Outcome.Agree.same _).bind ?_
  rintro c _ ⟨rfl, _⟩
  refine (endOfString_agree h _).bind ?_
  rintro ⟨foundSep, v⟩ ⟨_, w⟩ ⟨rfl, h⟩
  replace h : Mirrors heap₀ seps v w words := h
  cases foundSep with
  | true => exact storeWord_agree h
  | false =>
    simp only [Bool.false_eq_true, if_false, h.inword, h.wordLength]
    split
    · exact startWord_agree hm h
    · refine (Outcome.Agree.same _).bind ?_
      rintro n _ ⟨rfl, _⟩
      have hlength := h.setLength n
      rw [h.inword] at hlength
      exact .ok ⟨words, hlength⟩

theorem splitRound_agree (hm : ∀ n bytes, malloc n = some bytes → n ≤ bytes) (chars : List UInt8)
    (h : Mirrors heap₀ seps v w words) :
    (splitRoundOnHeap malloc input chars v).Agree
      (fun v' w' => ∃ words, Mirrors heap₀ seps v' w' words) (splitRound malloc input chars w) := by
  refine (splitBody_agree hm chars h).bind ?_
  rintro v w ⟨words, h⟩
  rw [h.i]
  refine (Outcome.Agree.same _).bind ?_
  rintro i _ ⟨rfl, _⟩
  exact .ok ⟨words, h.setI i⟩

/-! ## All of it -/

theorem copy_agree (n : Nat) (s : CString) (heap : Heap) :
    (do
      let (seps, heap) ← mallocChars malloc n heap
      let b ← charsAt heap seps
      let b ← b.strcpy s
      return (seps, setAt heap seps (.chars b)) : Outcome (Int × Heap)).Agree
      (fun r b => r.1 = heap.next ∧ ∃ x, r.2 = setAt (heap.issue x) heap.next (.chars b))
      (do
        let seps ← mallocAssert malloc n
        seps.strcpy s) := by
  unfold mallocChars mallocOnHeap mallocAssert
  cases malloc n with
  | none => exact .abort
  | some bytes =>
    simp only [Outcome.pure_eq, Outcome.ok_bind]
    rw [charsAt_of issue_self, Outcome.ok_bind]
    refine (Outcome.Agree.same _).go_on ?_
    rintro b _ ⟨rfl, _⟩
    exact ⟨_, rfl, rfl, _, rfl⟩

theorem copySeps_agree (separators : Option CString) (heap : Heap) :
    (copySepsOnHeap malloc separators heap).Agree
      (fun r b => r.1 = heap.next ∧ ∃ x, r.2 = setAt (heap.issue x) heap.next (.chars b))
      (copySeps malloc separators) := by
  cases separators with
  | none => exact copy_agree 5 defaultSep heap
  | some s => exact copy_agree _ s heap

/-- What `msplit` returns: an array with the same words in it and a `NULL` behind them, beside which
only the words have been taken. -/
structure Returned (heap₀ : Heap) (r : Int × Heap) (array : Block Slot 8)
    (slots : Block (Option Int) 8) (words : List Int) : Prop where
  points : r.2.value r.1 = some (.slots slots)
  same : SameWords r.2 slots array words
  fits : 8 * (words.length + 1) ≤ slots.bytes
  null : slots.cell words.length = some none ∧ array.cell words.length = some none
  owns : Handles.Owns heap₀ r.2 (r.1 :: words)

theorem Mirrors.returned (h : Mirrors heap₀ seps v w words) :
    (do
      let heap ← v.heap.release seps
      let slots ← slotsAt heap v.splitArray
      let slots ← slots.store v.nwords none
      return (v.splitArray, setAt heap v.splitArray (.slots slots)) : Outcome (Int × Heap)).Agree
      (fun r array => ∃ slots words, Returned heap₀ r array slots words)
      (w.splitArray.store w.nwords none) := by
  obtain ⟨slots, harray, hsame⟩ := h.array
  have hne : v.splitArray ≠ seps := fun he =>
    (List.nodup_cons.mp h.owns.nodup).1 (he ▸ List.mem_cons_self)
  obtain ⟨hrelease, howns⟩ := (h.owns.perm (List.Perm.swap seps v.splitArray words)).give
  have harray' : (v.heap.drop seps).value v.splitArray = some (.slots slots) := by
    rw [Handles.value_drop, if_neg hne, harray]
  rw [hrelease, Outcome.ok_bind, slotsAt_of harray', Outcome.ok_bind, h.nwords, ← h.count]
  refine (hsame.store none none).go_on ?_
  rintro _ _ ⟨hfits, rfl, rfl⟩
  refine ⟨_, rfl, { slots with cell := Function.update slots.cell words.length (some none) }, words,
    ?_, ⟨hsame.bytes, hsame.fits, fun i p hp => ?_⟩, hfits,
    ⟨Function.update_self _ _ _, Function.update_self _ _ _⟩, howns.adjust List.mem_cons_self _⟩
  · exact setAt_self harray'
  · have hi := (List.getElem?_eq_some_iff.mp hp).1
    obtain ⟨hp', hp''⟩ := h.word_ne (List.mem_of_getElem? hp)
    rw [setAt_ne hp', Handles.value_drop, if_neg hp'']
    simp only [Function.update_of_ne (Nat.ne_of_lt hi)]
    exact hsame.word i p hp

theorem Mirrors.start (heap : Heap) (bytes : Nat) (x : Object) (b : Block UInt8 1) :
    Mirrors heap (heap.next + 1)
      ⟨setAt ((heap.issue (.slots (.alloc bytes))).issue x) (heap.next + 1) (.chars b), heap.next,
        splitSizeInitial, 0, false, 0, 0⟩ ⟨.alloc bytes, splitSizeInitial, 0, false, 0, 0⟩ [] := by
  have hne : heap.next ≠ heap.next + 1 := Int.ne_of_lt (Int.lt_succ _)
  have howns := (((Handles.Owns.nothing heap).take (.slots (.alloc bytes))).take x).adjust
    List.mem_cons_self fun _ => .chars b
  exact ⟨rfl, rfl, rfl, rfl, rfl, rfl, ⟨Nat.zero_le 8, Nat.succ_pos 7⟩,
    howns.perm (List.Perm.swap _ _ _), .alloc bytes,
    (setAt_ne hne).trans ((issue_ne hne).trans issue_self), .start _ bytes⟩

/-- **The two versions of `msplit` agree**: they end in the same way, and with the same words. -/
theorem msplitOnHeap_agree (hm : ∀ n bytes, malloc n = some bytes → n ≤ bytes) (input : CString)
    (separators : Option CString) (heap : Heap) :
    (msplitOnHeap malloc input separators heap).Agree
      (fun r array => ∃ slots words, Returned heap r array slots words)
      (msplit malloc input separators) := by
  unfold msplitOnHeap msplit
  rw [mallocSlots, mallocOnHeap, mallocAssert]
  cases malloc (ptrSize * splitSizeInitial) with
  | none => exact .abort
  | some bytes =>
    simp only [Outcome.pure_eq, Outcome.ok_bind]
    refine (copySeps_agree separators _).bind ?_
    rintro ⟨_, _⟩ b ⟨rfl, x, rfl⟩
    rw [charsAt_of (setAt_self issue_self), Outcome.ok_bind]
    refine (Outcome.Agree.same _).bind ?_
    rintro seps _ ⟨rfl, _⟩
    refine (whileLoop_agree (R := fun v w => ∃ words, Mirrors heap (heap.next + 1) v w words) ?_ ?_ _
      _ _ ⟨[], .start heap bytes x b⟩).bind ?_
    · rintro v w ⟨words, h⟩
      rw [h.i]
      rfl
    · rintro v w ⟨words, h⟩ _
      exact splitRound_agree hm seps.chars h
    · rintro v w ⟨words, h⟩
      exact h.returned

end Mikelibc.Split
