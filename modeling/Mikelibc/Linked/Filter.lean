import Mikelibc.Linked.Macros

/-! # Removing every match

`mlinked_list_remove` goes on after a match, so with `previous == NULL` it should
leave the nodes that do not match, in their order. It takes a removed head for the
node before the next one: when the first two nodes both match, the second is
unlinked from the node that is gone, and `start` still points to it. -/
namespace Mikelibc.Linked
open CSem

variable {β η : Type} {check : η → β → Bool} {handle : η} {v : ListVars β} {l : List (Nat × β)}

/-- Remove ends, the list it leaves is that of the nodes that do not match, and `freenode` says
whether one did. -/
def Filters (check : η → β → Bool) (fuel : Nat) (handle : η) (v : ListVars β)
    (l : List (Nat × β)) : Prop :=
  ∃ v', mlinkedListRemove check fuel handle v = .ok v' ∧
    IsList v'.heap v'.start (l.filter fun c => !check handle c.2) ∧
    (v'.freenode ≠ none ↔ ∃ c ∈ l, check handle c.2 = true)

/-- `freenode` ends up not `NULL` if it was so before, or if a node matches. -/
theorem lastOr_ne_none {p : Ptr} {m : List (Nat × β)} : lastOr p m ≠ none ↔ p ≠ none ∨ m ≠ [] := by
  rcases m.eq_nil_or_concat with rfl | ⟨m, c, rfl⟩
  · simp [lastOr]
  · simp [lastOr, List.foldl_append]

/-- When the first two nodes match, `start` ends at the second. -/
theorem mlinkedListRemove_twoHeads {fuel a b : Nat} {x y : β} {rest : List (Nat × β)}
    {v' : ListVars β} (h : IsList v.heap v.start ((a, x) :: (b, y) :: rest))
    (hp : v.previous = none) (hx : check handle x = true)
    (hrun : mlinkedListRemove check fuel handle v = .ok v') : v'.start = some b := by
  obtain ⟨hs, n, ha, hrest⟩ := IsList.cons_iff.mp h
  obtain ⟨rfl, m, hb, _⟩ := IsList.cons_iff.mp hrest
  have hround := removeRound_head (v := { v with current := v.start }) hs hp ha hx
  rw [mlinkedListRemove, if_pos (by simp [hs])] at hrun
  cases fuel with
  | zero => cases hrun
  | succ fuel =>
    rw [removeLoop, whileLoop_round (by simp [hs]) hround] at hrun
    have hstart := removeLoop_start (v := { v with
      start := some b, current := some b, previous := some a, freenode := some a }) (by simp) hrun
    exact hstart

/-- Then the list that is left is not the filtered one. -/
theorem not_filters {fuel a b : Nat} {x y : β} {rest : List (Nat × β)}
    (h : IsList v.heap v.start ((a, x) :: (b, y) :: rest)) (hp : v.previous = none)
    (hx : check handle x = true) (hy : check handle y = true) :
    ¬ Filters check fuel handle v ((a, x) :: (b, y) :: rest) := by
  intro hfilters
  obtain ⟨v', hrun, hlist, _⟩ := hfilters
  have hnodup := h.nodup
  simp only [List.map_cons, List.nodup_cons] at hnodup
  rw [mlinkedListRemove_twoHeads h hp hx hrun, List.filter_cons_of_neg (by simp [hx]),
    List.filter_cons_of_neg (by simp [hy])] at hlist
  -- the second node would be the first of those that do not match
  cases hfilter : rest.filter fun c => !check handle c.2 with
  | nil => rw [hfilter] at hlist; cases IsList.nil_iff.mp hlist
  | cons d rest' =>
    obtain ⟨m, z⟩ := d
    rw [hfilter] at hlist
    cases hlist.start_eq
    have hmem : (b, z) ∈ rest := List.mem_of_mem_filter (hfilter ▸ List.mem_cons_self)
    exact hnodup.2.1 (List.mem_map.mpr ⟨_, hmem, rfl⟩)

/-- **When remove filters the list.** With `previous == NULL` it does exactly when the first two
nodes do not both match, and `freenode` was `NULL` before or some node matches. -/
theorem mlinkedListRemove_filters_iff {fuel : Nat} (h : IsList v.heap v.start l)
    (hf : l.length < fuel) (hp : v.previous = none) :
    Filters check fuel handle v l ↔
      ¬ (∃ c d rest, l = c :: d :: rest ∧ check handle c.2 = true ∧ check handle d.2 = true) ∧
      (v.freenode = none ∨ ∃ c ∈ l, check handle c.2 = true) := by
  have hmatch : l.filter (fun c => check handle c.2) ≠ [] ↔ ∃ c ∈ l, check handle c.2 = true := by
    simp [List.filter_eq_nil_iff]
  by_cases hheads : ∃ c d rest, l = c :: d :: rest ∧ check handle c.2 = true ∧
      check handle d.2 = true
  · refine iff_of_false ?_ fun hno => hno.1 hheads
    obtain ⟨c, d, rest, rfl, hc, hd⟩ := hheads
    exact not_filters h hp hc hd
  · have hok : RemoveOk check handle v.previous l := by
      cases l with
      | nil => trivial
      | cons c rest =>
        rw [RemoveOk, ← Bool.not_eq_true, or_iff_not_imp_left, not_not]
        refine fun hc => ⟨hp, fun d hd => ?_⟩
        rw [← Bool.not_eq_true]
        obtain ⟨tail, rfl⟩ := List.head?_eq_some_iff.mp hd
        exact fun hd' => hheads ⟨c, d, tail, rfl, hc, hd'⟩
    obtain ⟨v', hrun, hlist, hfree, _⟩ := mlinkedListRemove_spec h hf hok
    have hfreenode : v'.freenode ≠ none ↔ v.freenode ≠ none ∨ ∃ c ∈ l, check handle c.2 = true := by
      rw [hfree, lastOr_ne_none, hmatch]
    constructor
    · intro hfilters
      obtain ⟨u, hu, _, hiff⟩ := hfilters
      rw [hrun] at hu
      cases hu
      refine ⟨hheads, or_iff_not_imp_left.mpr fun hne => hiff.mp (hfreenode.mpr (.inl hne))⟩
    · intro hcond
      refine ⟨v', hrun, hlist, hfreenode.trans ⟨fun hor => ?_, .inr⟩⟩
      rcases hor with hne | hex
      · exact hcond.2.resolve_left hne
      · exact hex

def threeVars : ListVars Nat :=
  ⟨fun a => if a = 1 then some ⟨1, some 2⟩ else if a = 2 then some ⟨2, some 3⟩
    else if a = 3 then some ⟨3, none⟩ else none, some 1, none, none, none, 0⟩

theorem threeVars_list : IsList threeVars.heap threeVars.start [(1, 1), (2, 2), (3, 3)] :=
  .cons rfl (.cons rfl (.cons rfl (.nil none)))

/-- The first and the third of three nodes are removed. -/
theorem mlinkedListRemove_filters_odd :
    Filters (fun (_ : Unit) (k : Nat) => k % 2 == 1) 4 () threeVars [(1, 1), (2, 2), (3, 3)] :=
  (mlinkedListRemove_filters_iff threeVars_list (by decide) rfl).mpr (by simp [threeVars])

/-- The first two of three nodes match: the second is still on the list afterwards. -/
theorem mlinkedListRemove_keeps_match :
    ¬ ∀ (check : Unit → Nat → Bool) (fuel : Nat) (v : ListVars Nat) (l : List (Nat × Nat)),
      IsList v.heap v.start l → l.length < fuel → v.previous = none → v.freenode = none →
      Filters check fuel () v l := by
  intro h
  exact not_filters threeVars_list rfl (by decide) (by decide)
    (h (fun _ k => decide (k < 3)) 4 threeVars _ threeVars_list (by decide) rfl rfl)

end Mikelibc.Linked
