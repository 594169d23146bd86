import Mikelibc.Lib.Memory

/-! # `msplit` of `mstr.c`

The loop keeps whether it is in a word and how long the word is so far, and stores
a word when it meets a separator; the last character counts as one. `malloc n` is
`none` when the request for `n` bytes fails and otherwise the number of bytes the
block really has, so that what happens beyond the requested size can be told
apart from what the words are. The counters `i` and `word_length` are `int`, and
`nwords` and `array_length`, which count words, stay below them. Debug messages
are left out. -/
namespace Mikelibc.Split
open CSem

def maxSeparator : Nat := 1024

def splitSizeInitial : Nat := 8

def splitGrowFactor : Nat := 2

def ptrSize : Nat := 8

def defaultSep : CString := ⟨[' ', '\t', '\n', '\r'].map Char.toUInt8, by decide, by decide⟩

/-- A slot of the array: a string of its own, or `NULL`. -/
abbrev Slot := Option (Block UInt8 1)

structure SplitVars where
  splitArray : Block Slot 8
  arrayLength : Nat
  nwords : Nat
  inword : Bool
  wordLength : Nat
  i : Nat

variable (malloc : Nat → Option Nat)

def mallocAssert {α : Type} {w : Nat} (n : Nat) : Outcome (Block α w) :=
  match malloc n with
  | some bytes => return Block.alloc bytes
  | none => .abort

/-- The copy of the separators: four characters by default, and otherwise a block for
`strnlen(separators, MAX_SEPARATOR)` of them. -/
def copySeps (separators : Option CString) : Outcome (Block UInt8 1) :=
  match separators with
  | none => do
    let seps ← mallocAssert malloc 5
    seps.strcpy defaultSep
  | some s => do
    let seps ← mallocAssert malloc (min s.chars.length maxSeparator)
    seps.strcpy s

/-- `if (inword) { ... }` at a separator: store the word. -/
def storeWord (inputString : CString) (v : SplitVars) : Outcome SplitVars :=
  if v.inword then do
    let word ← mallocAssert malloc v.wordLength
    let splitArray ← v.splitArray.store v.nwords (some word)
    Outcome.assert (v.i ≥ v.wordLength)
    let word ← word.strncpy inputString (v.i - v.wordLength) v.wordLength
    let word ← word.store v.wordLength 0
    let splitArray ← splitArray.store v.nwords (some word)
    return { v with splitArray := splitArray, inword := false, nwords := v.nwords + 1 }
  else return v

/-- `if (! inword) { ... }`: a word begins, and the array grows if it is full. -/
def startWord (v : SplitVars) : Outcome SplitVars :=
  let v := { v with inword := true, wordLength := 1 }
  if v.nwords + 1 > v.arrayLength then
    let arrayLength := v.arrayLength * splitGrowFactor
    match malloc (ptrSize * arrayLength) with
    | some bytes =>
      return { v with splitArray := v.splitArray.realloc bytes, arrayLength := arrayLength }
    | none => .abort
  else return v

/-- `if (i == strlen(input_string)-1) { ... }`: the end of the string counts as a
separator, and `i` and `word_length` are moved on. -/
def endOfString (inputString : CString) (foundSep : Bool) (v : SplitVars) :
    Outcome (Bool × SplitVars) :=
  if v.i = (inputString.strlen - 1).toNat then do
    let wordLength ← intAdd v.wordLength 1
    let i ← intAdd v.i 1
    return (true, { v with wordLength := wordLength, i := i })
  else return (foundSep, v)

/-- The body of the loop, up to its `i++`. -/
def splitBody (inputString : CString) (seps : List UInt8) (v : SplitVars) : Outcome SplitVars := do
  let c ← inputString.get v.i
  let (foundSep, v) ← endOfString inputString (seps.any (c == ·)) v
  if foundSep then storeWord malloc inputString v
  else if v.inword = false then startWord malloc v
  else return { v with wordLength := ← intAdd v.wordLength 1 }

def splitRound (inputString : CString) (seps : List UInt8) (v : SplitVars) : Outcome SplitVars := do
  let v ← splitBody malloc inputString seps v
  return { v with i := ← intAdd v.i 1 }

/-- The loop, `for (int i = 0; i < strlen(input_string); i++)`. -/
def splitLoop (inputString : CString) (seps : List UInt8) : Nat → SplitVars → Outcome SplitVars :=
  whileLoop (fun v => return decide (v.i < inputString.strlen.toNat))
    (splitRound malloc inputString seps)

def msplit (inputString : CString) (separators : Option CString) : Outcome (Block Slot 8) := do
  let splitArray ← mallocAssert malloc (ptrSize * splitSizeInitial)
  let seps ← copySeps malloc separators
  let seps ← seps.cstring
  let v ← splitLoop malloc inputString seps.chars (inputString.strlen.toNat + 1) {
    splitArray := splitArray
    arrayLength := splitSizeInitial
    nwords := 0
    inword := false
    wordLength := 0
    i := 0 }
  v.splitArray.store v.nwords none

/-- The strings in the slots from `k` on, up to the `NULL`. -/
def stringsFrom (array : Block Slot 8) : Nat → Nat → Outcome (List CString)
  | 0, _ => .fault
  | fuel + 1, k => do
    match ← array.load k with
    | none => return []
    | some word =>
      let s ← word.cstring
      let ss ← stringsFrom array fuel (k + 1)
      return s :: ss

/-- The strings a `char **` to the start of the array denotes. -/
def strings (array : Block Slot 8) : Outcome (List CString) := stringsFrom array (array.bytes + 1) 0

end Mikelibc.Split
