import Mikelibc.Split.Loop

/-! # Splitting what has been joined

Words with a separator between each two of them: `msplit` gives them back, but for a last word of
one character, which it drops (`codeWords_join`). -/
namespace Mikelibc.Split
open CSem

variable {sep : UInt8 → Bool} {c : UInt8}

/-- The words, with the character between each two of them. -/
def join (c : UInt8) (words : List (List UInt8)) : List UInt8 := [c].intercalate words

/-- A character or more, and no separator among them. -/
def IsWord (sep : UInt8 → Bool) (w : List UInt8) : Prop := w ≠ [] ∧ ∀ x ∈ w, sep x = false

/-- The words but for a last one of one character. -/
def keptWords : List (List UInt8) → List (List UInt8)
  | [] => []
  | [w] => if w.length = 1 then [] else [w]
  | w :: v :: words => w :: keptWords (v :: words)

/-- The last word has two characters or more. -/
def LastIsLong (words : List (List UInt8)) : Prop := ∀ w ∈ words.getLast?, 2 ≤ w.length

instance (words : List (List UInt8)) : Decidable (LastIsLong words) :=
  match h : words.getLast? with
  | none => isTrue (by simp [LastIsLong, h])
  | some w => decidable_of_iff (2 ≤ w.length) (by simp [LastIsLong, h])

instance (w : List UInt8) : Decidable (IsWord sep w) := inferInstanceAs (Decidable (_ ∧ _))

theorem join_cons (c : UInt8) (w v : List UInt8) (words : List (List UInt8)) :
    join c (w :: v :: words) = w ++ c :: join c (v :: words) := by
  simp [join, List.intercalate]

theorem join_ne_nil (c : UInt8) {w : List UInt8} (words : List (List UInt8)) (hw : w ≠ []) :
    join c (w :: words) ≠ [] := by
  cases words with
  | nil => simpa [join, List.intercalate] using hw
  | cons v words =>
    rw [join_cons]
    simp

/-- The characters of a word are read into it. -/
theorem codeWords_word {w : List UInt8} (hw : ∀ x ∈ w, sep x = false) :
    ∀ (cur : List UInt8) {d : UInt8} {rest : List UInt8},
      codeWords sep cur (w ++ d :: rest) = codeWords sep (cur ++ w) (d :: rest) := by
  induction w with
  | nil => intro cur d rest; rw [List.nil_append, List.append_nil]
  | cons x w ih =>
    intro cur d rest
    have hx : sep x = false := hw x List.mem_cons_self
    obtain ⟨y, rest', hrest⟩ : ∃ y rest', w ++ d :: rest = y :: rest' := by
      cases w with
      | nil => exact ⟨d, rest, rfl⟩
      | cons y w => exact ⟨y, w ++ d :: rest, rfl⟩
    rw [List.cons_append, hrest, codeWords, hx, if_neg Bool.false_ne_true, ← hrest,
      ih (fun y hy => hw y (List.mem_cons_of_mem x hy)), List.append_assoc]
    rfl

theorem codeWords_last {w : List UInt8} (hw : IsWord sep w) :
    codeWords sep [] w = if w.length = 1 then [] else [w] := by
  obtain ⟨hne, hsep⟩ := hw
  obtain ⟨pre, x, rfl⟩ := List.eq_nil_or_concat' w |>.resolve_left hne
  rw [codeWords_word (fun y hy => hsep y (List.mem_append_left _ hy)), List.nil_append, codeWords]
  by_cases hpre : pre = []
  · simp [hpre]
  · have hlen : (pre ++ [x]).length ≠ 1 := by
      have := List.length_pos_of_ne_nil hpre
      simp only [List.length_append, List.length_singleton]
      omega
    rw [if_neg hpre, if_neg hlen]

/-- **What the loop stores of joined words**: all of them, but for a last one of one character. -/
theorem codeWords_join (hc : sep c = true) :
    ∀ {words : List (List UInt8)}, (∀ w ∈ words, IsWord sep w) →
      codeWords sep [] (join c words) = keptWords words := by
  intro words
  induction words with
  | nil => intro _; rfl
  | cons w words ih =>
    intro hwords
    obtain ⟨hw, hrest⟩ := List.forall_mem_cons.mp hwords
    cases words with
    | nil => simpa [join, List.intercalate, keptWords] using codeWords_last hw
    | cons v words =>
      obtain ⟨d, rest, hjoin⟩ := List.exists_cons_of_ne_nil
        (join_ne_nil c words (hrest v List.mem_cons_self).1)
      rw [join_cons, codeWords_word hw.2, List.nil_append, keptWords, ← ih hrest, hjoin, codeWords,
        hc, if_pos rfl, closeWord, if_neg hw.1]
      rfl

theorem lastIsLong_cons (w v : List UInt8) (words : List (List UInt8)) :
    LastIsLong (w :: v :: words) ↔ LastIsLong (v :: words) := by
  simp [LastIsLong]

theorem keptWords_eq {words : List (List UInt8)} (hne : ∀ w ∈ words, w ≠ []) :
    keptWords words = if LastIsLong words then words else words.dropLast := by
  induction words with
  | nil => rfl
  | cons w words ih =>
    obtain ⟨hw, hrest⟩ := List.forall_mem_cons.mp hne
    cases words with
    | nil =>
      have := List.length_pos_of_ne_nil hw
      by_cases h1 : w.length = 1
      · simp [keptWords, LastIsLong, h1]
      · have h2 : 2 ≤ w.length := by omega
        simp [keptWords, LastIsLong, h1, h2]
    | cons v words =>
      rw [keptWords, ih hrest, if_congr (lastIsLong_cons w v words) rfl rfl]
      split <;> rfl

theorem keptWords_eq_iff {words : List (List UInt8)} (hne : ∀ w ∈ words, w ≠ []) :
    keptWords words = words ↔ LastIsLong words := by
  rw [keptWords_eq hne]
  split
  · next hlong => exact iff_of_true rfl hlong
  · next hshort =>
    refine iff_of_false (fun hsame => hshort ?_) hshort
    have hlen := congrArg List.length hsame
    rw [List.length_dropLast] at hlen
    obtain rfl : words = [] := List.length_eq_zero_iff.mp (by omega)
    exact nofun

variable {malloc : Nat → Option Nat}

/-- **Joining and splitting.** Words without separators that are joined with one of the separators
come back from `msplit` exactly if the last of them has more than one character; else all but this
one come back. -/
theorem msplit_join_iff (hm : Roomy malloc) (separators : Option CString)
    (hlen : ∀ s ∈ separators, s.chars.length ≤ maxSeparator)
    (hc : isSep (sepString separators).chars c = true) (words : List (List UInt8))
    (hwords : ∀ w ∈ words, IsWord (isSep (sepString separators).chars) w) (input : CString)
    (hinput : input.chars = join c words) (hmax : input.chars.length < intMax) :
    ∃ array ss, msplit malloc input separators = .ok array ∧ strings array = .ok ss ∧
      (ss.map CString.chars = words ↔ LastIsLong words) ∧
      (¬ LastIsLong words → ss.map CString.chars = words.dropLast) := by
  have hne : ∀ w ∈ words, w ≠ [] := fun w hw => (hwords w hw).1
  obtain ⟨array, ss, hsplit, hss, hstored⟩ := msplit_spec hm hlen hmax
  rw [hinput, codeWords_join hc hwords] at hstored
  refine ⟨array, ss, hsplit, hss, ?_, fun hshort => ?_⟩
  · rw [hstored]
    exact keptWords_eq_iff hne
  · rw [hstored, keptWords_eq hne, if_neg hshort]

/-- `"ab c de"` and `"ab c"`. -/
theorem msplit_join_three : (∃ array ss, msplit (fun n => some (n + 8))
      ⟨['a', 'b', ' ', 'c', ' ', 'd', 'e'].map Char.toUInt8, by decide, by decide⟩ none = .ok array ∧
    strings array = .ok ss ∧
    ss.map CString.chars = [['a', 'b'], ['c'], ['d', 'e']].map (List.map Char.toUInt8)) ∧
    ∃ array ss, msplit (fun n => some (n + 8))
      ⟨['a', 'b', ' ', 'c'].map Char.toUInt8, by decide, by decide⟩ none = .ok array ∧
    strings array = .ok ss ∧ ss.map CString.chars = [['a', 'b'].map Char.toUInt8] := by
  constructor
  · obtain ⟨array, ss, hsplit, hss, hback, _⟩ := msplit_join_iff (c := ' '.toUInt8) roomy_spare none
      (by simp) (by decide) ([['a', 'b'], ['c'], ['d', 'e']].map (List.map Char.toUInt8))
      (by decide +kernel) ⟨['a', 'b', ' ', 'c', ' ', 'd', 'e'].map Char.toUInt8, by decide, by decide⟩
      (by decide) (by decide)
    exact ⟨array, ss, hsplit, hss, hback.mpr (by decide)⟩
  · obtain ⟨array, ss, hsplit, hss, _, hdrop⟩ := msplit_join_iff (c := ' '.toUInt8) roomy_spare none
      (by simp) (by decide) ([['a', 'b'], ['c']].map (List.map Char.toUInt8)) (by decide +kernel)
      ⟨['a', 'b', ' ', 'c'].map Char.toUInt8, by decide, by decide⟩ (by decide) (by decide)
    exact ⟨array, ss, hsplit, hss, hdrop (by decide)⟩

end Mikelibc.Split
