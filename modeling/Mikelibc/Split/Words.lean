import Mikelibc.Split.Code

/-! # What the loop of `msplit` stores

The words of a string, as the header describes them (`splitWords`), and the words
the loop stores, as a function of the string alone (`codeWords`). They part at the
last character: `codeWords_eq_iff` says for which strings they are the same. The
second half shows that the loop does store `codeWords`. -/
namespace Mikelibc.Split
open CSem

/-! ## Words of a string -/

/-- The non-empty runs of characters between separators. -/
def splitWords (sep : UInt8 → Bool) (cs : List UInt8) : List (List UInt8) :=
  (cs.splitOnP sep).filter (· ≠ [])

/-- The word before a separator, if there is one. -/
def closeWord (cur : List UInt8) : List (List UInt8) := if cur = [] then [] else [cur]

/-- The words the loop stores when it has read `cur` of a word: the last character
goes into the word whatever it is, and does not begin one. -/
def codeWords (sep : UInt8 → Bool) : List UInt8 → List UInt8 → List (List UInt8)
  | _, [] => []
  | cur, [c] => if cur = [] then [] else [cur ++ [c]]
  | cur, c :: d :: rest =>
    if sep c then closeWord cur ++ codeWords sep [] (d :: rest)
    else codeWords sep (cur ++ [c]) (d :: rest)

/-- The last two characters are of one kind, separators or not; a single character
is a separator. -/
def EndsCleanly (sep : UInt8 → Bool) : List UInt8 → Prop
  | [] => True
  | [c] => sep c = true
  | [b, c] => sep b = sep c
  | _ :: b :: c :: rest => EndsCleanly sep (b :: c :: rest)

variable {sep : UInt8 → Bool}

instance EndsCleanly.decide : DecidablePred (EndsCleanly sep)
  | [] => isTrue trivial
  | [_] => inferInstanceAs (Decidable (_ = _))
  | [_, _] => inferInstanceAs (Decidable (_ = _))
  | _ :: b :: c :: rest => EndsCleanly.decide (b :: c :: rest)

/-- The words of the rest of a string, after `cur` of a word. -/
def wordsFrom (sep : UInt8 → Bool) (cur rest : List UInt8) : List (List UInt8) :=
  ((rest.splitOnP sep).modifyHead (cur ++ ·)).filter (· ≠ [])

theorem wordsFrom_start (cs : List UInt8) : wordsFrom sep [] cs = splitWords sep cs := by
  have hid : (cs.splitOnP sep).modifyHead ([] ++ ·) = cs.splitOnP sep := by
    cases cs.splitOnP sep <;> rfl
  rw [wordsFrom, hid, splitWords]

theorem wordsFrom_nil (cur : List UInt8) : wordsFrom sep cur [] = closeWord cur := by
  by_cases h : cur = [] <;> simp [wordsFrom, closeWord, h]

theorem wordsFrom_cons (cur : List UInt8) (c : UInt8) (rest : List UInt8) :
    wordsFrom sep cur (c :: rest) =
      if sep c then closeWord cur ++ wordsFrom sep [] rest else wordsFrom sep (cur ++ [c]) rest := by
  rw [wordsFrom_start, wordsFrom, wordsFrom, splitWords, List.splitOnP_cons_eq_if_modifyHead]
  by_cases hc : sep c
  · by_cases h : cur = [] <;> simp [closeWord, hc, h]
  · simp only [if_neg hc, List.modifyHead_modifyHead]
    congr 2
    funext xs
    simp

theorem endsCleanly_cons (c d : UInt8) (rest : List UInt8) :
    EndsCleanly sep (c :: d :: rest) ↔
      match rest with
      | [] => sep c = sep d
      | _ => EndsCleanly sep (d :: rest) := by
  cases rest <;> rfl

/-- Where the two agree, seen from inside the string: the character before the rest
decides for a rest of one. -/
theorem codeWords_eq_wordsFrom_iff (rest : List UInt8) :
    ∀ cur, codeWords sep cur rest = wordsFrom sep cur rest ↔
      match rest with
      | [] => cur = []
      | [c] => sep c = true ↔ cur = []
      | _ => EndsCleanly sep rest := by
  induction rest with
  | nil =>
    intro cur
    by_cases h : cur = [] <;> simp [codeWords, wordsFrom_nil, closeWord, h]
  | cons c rest ih =>
    intro cur
    cases rest with
    | nil =>
      rw [codeWords, wordsFrom_cons, wordsFrom_nil, wordsFrom_nil]
      by_cases h : cur = [] <;> by_cases hc : sep c <;> simp [closeWord, h, hc]
    | cons d rest =>
      rw [codeWords, wordsFrom_cons, endsCleanly_cons]
      by_cases hc : sep c
      · rw [if_pos hc, if_pos hc, List.append_cancel_left_eq, ih]
        cases rest <;> simp [hc, eq_comm (a := true)]
      · rw [if_neg hc, if_neg hc, ih]
        cases rest <;> simp [hc]

/-- **Where the loop stores the words**: in the strings that end cleanly. -/
theorem codeWords_eq_iff (cs : List UInt8) :
    codeWords sep [] cs = splitWords sep cs ↔ EndsCleanly sep cs := by
  have h := @codeWords_eq_wordsFrom_iff sep cs []
  rw [wordsFrom_start] at h
  rw [h]
  rcases cs with _ | ⟨c, _ | ⟨d, rest⟩⟩ <;> simp [EndsCleanly]

end Mikelibc.Split
