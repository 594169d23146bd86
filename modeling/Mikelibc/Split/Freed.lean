import Mikelibc.Split.OnHeap

/-! # What `free_msplit` gives back

The pointers that `msplit` returns lead to the strings of `Split.Code`. What it has taken is the
array and a block for each string, and `free_msplit` frees all of it, once. -/
namespace Mikelibc.Split
open CSem

variable {malloc : Nat → Option Nat} {heap₀ : Heap} {slots : Block (Option Int) 8}
  {array : Block Slot 8} {words : List Int} {r : Int × Heap} {k : Nat}

theorem Returned.load (h : Returned heap₀ r array slots words) (hk : k ≤ words.length) :
    slots.load k = .ok words[k]? := by
  have hfit : slots.Fits k := by
    have := h.fits
    unfold Block.Fits
    omega
  by_cases hlt : k < words.length
  · rw [List.getElem?_eq_getElem hlt]
    exact Block.load_of hfit (h.same.word k _ (List.getElem?_eq_getElem hlt)).1
  · obtain rfl : k = words.length := by omega
    rw [List.getElem?_eq_none (Nat.le_refl _)]
    exact Block.load_of hfit h.null.1

theorem Returned.load_array (h : Returned heap₀ r array slots words) (hk : k ≤ words.length) :
    array.load k = .ok none ∧ words[k]? = none ∨
      ∃ p b, array.load k = .ok (some b) ∧ words[k]? = some p ∧ r.2.value p = some (.chars b) := by
  have hfit : array.Fits k := by
    have := h.fits
    rw [Block.Fits, ← h.same.bytes]
    omega
  by_cases hlt : k < words.length
  · obtain ⟨_, b, hb, hvalue⟩ := h.same.word k _ (List.getElem?_eq_getElem hlt)
    exact .inr ⟨_, b, Block.load_of hfit hb, List.getElem?_eq_getElem hlt, hvalue⟩
  · obtain rfl : k = words.length := by omega
    exact .inl ⟨Block.load_of hfit h.null.2, List.getElem?_eq_none (Nat.le_refl _)⟩

theorem Returned.stringsFrom_eq (h : Returned heap₀ r array slots words) :
    ∀ (fuel k : Nat), k ≤ words.length →
      stringsOnHeap r.2 slots fuel k = stringsFrom array fuel k := by
  intro fuel
  induction fuel with
  | zero => intro k _; rfl
  | succ fuel ih =>
    intro k hk
    rw [stringsOnHeap, stringsFrom, h.load hk]
    obtain ⟨harray, hnone⟩ | ⟨p, b, harray, hp, hvalue⟩ := h.load_array hk
    · rw [harray, hnone]
      rfl
    · rw [harray, hp]
      simp only [Outcome.ok_bind, charsAt_of hvalue]
      rw [ih (k + 1) (List.getElem?_eq_some_iff.mp hp).1]

theorem Returned.length_strings (h : Returned heap₀ r array slots words) :
    ∀ {fuel k : Nat} {ss : List CString}, k ≤ words.length → stringsFrom array fuel k = .ok ss →
      k + ss.length = words.length := by
  intro fuel
  induction fuel with
  | zero => intro k ss _ hss; cases hss
  | succ fuel ih =>
    intro k ss hk hss
    obtain ⟨slot, hslot, hss⟩ := Outcome.bind_eq_ok.mp hss
    obtain ⟨harray, hnone⟩ | ⟨p, b, harray, hp, _⟩ := h.load_array hk
    · cases hslot.symm.trans harray
      cases hss
      have := List.getElem?_eq_none_iff.mp hnone
      simp only [List.length_nil]
      omega
    · cases hslot.symm.trans harray
      obtain ⟨s, _, hss⟩ := Outcome.bind_eq_ok.mp hss
      obtain ⟨ss', hss', hss⟩ := Outcome.bind_eq_ok.mp hss
      cases hss
      have := ih (List.getElem?_eq_some_iff.mp hp).1 hss'
      rw [List.length_cons]
      omega

/-- The loop of `free_msplit` frees the words that are left. -/
theorem Returned.freeWords_of (h : Returned heap₀ r array slots words) :
    ∀ (rest : List Int) (fuel k : Nat) (heap : Heap), words.drop k = rest → rest.length < fuel →
      k ≤ words.length → heap.value r.1 = some (.slots slots) →
      Handles.Owns heap₀ heap (r.1 :: rest) →
      ∃ heap', freeWords r.1 fuel k heap = .ok heap' ∧ Handles.Owns heap₀ heap' [r.1] := by
  intro rest
  induction rest with
  | nil =>
    intro fuel k heap hrest hfuel hk hslots howns
    obtain ⟨fuel, rfl⟩ : ∃ n, fuel = n + 1 := ⟨fuel - 1, by omega⟩
    have hnone : words[k]? = none := List.getElem?_eq_none (List.drop_eq_nil_iff.mp hrest)
    exact ⟨heap, by simp [freeWords, slotsAt_of hslots, h.load hk, hnone], howns⟩
  | cons word rest ih =>
    intro fuel k heap hrest hfuel hk hslots howns
    obtain ⟨fuel, rfl⟩ : ∃ n, fuel = n + 1 := ⟨fuel - 1, by omega⟩
    have hword : words[k]? = some word := by
      rw [← Nat.add_zero k, ← List.getElem?_drop, hrest]
      rfl
    have hlt := (List.getElem?_eq_some_iff.mp hword).1
    have hne : r.1 ≠ word := fun he =>
      (List.nodup_cons.mp howns.nodup).1 (he ▸ List.mem_cons_self)
    obtain ⟨hrelease, howns'⟩ := (howns.perm (List.Perm.swap word r.1 rest)).give
    have hrest' : words.drop (k + 1) = rest := by
      rw [← List.drop_drop, hrest]
      rfl
    obtain ⟨heap', hfree, hleft⟩ := ih fuel (k + 1) (heap.drop word) hrest'
      (Nat.lt_of_succ_lt_succ hfuel) hlt (by rw [Handles.value_drop, if_neg hne, hslots]) howns'
    exact ⟨heap', by simp [freeWords, slotsAt_of hslots, h.load hk, hword, hrelease, hfree], hleft⟩

/-- **What `msplit` takes, `free_msplit` gives back.** Whatever the string, the separators and the
memory it is called with, `msplit` ends as the version with blocks does, and if it returns, the
array has the same strings. Then one block for each of them and one for the array are in use that
were not before, and `free_msplit` frees each of these once: the memory is as it was. -/
theorem msplit_freed (hm : ∀ n bytes, malloc n = some bytes → n ≤ bytes) (input : CString)
    (separators : Option CString) (heap : Heap) :
    (msplitOnHeap malloc input separators heap).Agree (fun r array =>
      stringsAt r.2 r.1 = strings array ∧
      (∀ ss, strings array = .ok ss → r.2.live.card = heap.live.card + ss.length + 1) ∧
      ∃ heap', freeMsplitOnHeap (array.bytes + 1) r.1 r.2 = .ok heap' ∧ heap'.value = heap.value)
      (msplit malloc input separators) := by
  refine (msplitOnHeap_agree hm input separators heap).mono fun r array ⟨slots, words, h⟩ =>
    ⟨?_, fun ss hss => ?_, ?_⟩
  · rw [stringsAt, slotsAt_of h.points, Outcome.ok_bind, strings, ← h.same.bytes]
    exact h.stringsFrom_eq _ 0 (Nat.zero_le _)
  · have hcount := h.length_strings (Nat.zero_le _) hss
    rw [h.owns.card, List.length_cons]
    omega
  · have hfits := h.fits
    rw [h.same.bytes] at hfits
    obtain ⟨heap₁, hwords, hleft⟩ := h.freeWords_of words (array.bytes + 1) 0 r.2 rfl (by omega)
      (Nat.zero_le _) h.points h.owns
    obtain ⟨hrelease, hnothing⟩ := hleft.give
    refine ⟨_, by rw [freeMsplitOnHeap, hwords, Outcome.ok_bind, hrelease], funext fun p => ?_⟩
    by_cases hp : p < heap.next
    · exact hnothing.old p hp
    · rw [Handles.value_past (Int.not_lt.mp hp)]
      exact hnothing.leaves.value_eq (x := none) (Int.not_lt.mp hp)

def abCd : CString := ⟨['a', 'b', ' ', 'c', 'd'].map Char.toUInt8, by decide, by decide⟩

theorem msplit_freed_two : ∃ p heap fuel heap',
    msplitOnHeap (fun n => some (n + 8)) abCd none .empty = .ok (p, heap) ∧ heap.live.card = 3 ∧
      freeMsplitOnHeap fuel p heap = .ok heap' ∧ heap'.value = fun _ => none := by
  obtain ⟨⟨p, heap⟩, hrun, hcard⟩ := Outcome.any_eq_true.mp (by decide +kernel :
    (msplitOnHeap (fun n => some (n + 8)) abCd none .empty).any
      (fun r => decide (r.2.live.card = 3)) = true)
  have h := msplit_freed (fun n _ h => Option.some.inj h ▸ Nat.le_add_right n 8) abCd none .empty
  rw [hrun] at h
  obtain ⟨_, _, _, _, heap', hfree, hvalue⟩ := h.left
  exact ⟨p, heap, _, heap', hrun, of_decide_eq_true hcard, hfree, hvalue⟩

end Mikelibc.Split
