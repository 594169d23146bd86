import Mikelibc.Linked.Code

/-! # What each macro does to a list

One specification for each macro, for variables whose `start` is a list. Add,
find and length need nothing else. Remove does too (`RemoveOk`): a node at the
head that matches is unlinked only when `previous` is `NULL`, and then the node
behind it is not looked at as a new head. Whatever is unlinked, the payloads stay
as they are. -/
namespace Mikelibc.Linked
open CSem

variable {β η : Type} {check : η → β → Bool} {handle : η} {v v' : ListVars β} {l : List (Nat × β)}

def SamePayloads (s s' : Store β) : Prop := ∀ a, (s' a).map Cell.payload = (s a).map Cell.payload

theorem SamePayloads.refl (s : Store β) : SamePayloads s s := fun _ => rfl

theorem SamePayloads.trans {s s' s'' : Store β} (h : SamePayloads s s') (h' : SamePayloads s' s'') :
    SamePayloads s s'' := fun a => (h' a).trans (h a)

theorem SamePayloads.none_iff {s s' : Store β} (h : SamePayloads s s') (a : Nat) :
    s' a = none ↔ s a = none := by
  rw [← Option.map_eq_none_iff (f := Cell.payload), h a, Option.map_eq_none_iff]

theorem samePayloads_setNext {s : Store β} {a : Nat} {x : β} {m : Ptr} (h : s a = some ⟨x, m⟩)
    (n : Ptr) :
    SamePayloads s (Function.update s a (some ⟨x, n⟩)) := by
  intro b
  by_cases hb : b = a
  · subst hb; simp [h]
  · rw [Function.update_of_ne hb]

/-! ## Add, find, length -/

theorem walkToLast {a : Nat} {x : β} : ∀ (l : List (Nat × β)) (fuel : Nat) (v : ListVars β),
    IsList v.heap v.current (l ++ [(a, x)]) → l.length < fuel →
    whileLoop (fun v => do
      let node ← v.heap.load v.current
      return decide (node.next ≠ none)) advance fuel v = .ok { v with current := some a }
  | _, 0, _, _, hf => absurd hf (Nat.not_lt_zero _)
  | [], fuel + 1, v, h, _ => by
    obtain ⟨hc, n, ha, hn⟩ := IsList.cons_iff.mp h
    rw [IsList.nil_iff.mp hn] at ha
    rw [whileLoop_exit (by simp [hc, Store.load_of ha]), ← hc]
  | (b, y) :: l, fuel + 1, v, h, hf => by
    obtain ⟨hc, n, hb, hl⟩ := IsList.cons_iff.mp h
    have hn : n ≠ none := hl.start_ne (by simp)
    rw [whileLoop_round (t := { v with current := n }) (by simp [hc, Store.load_of hb, hn])
      (by simp [advance, hc, Store.load_of hb])]
    exact walkToLast l fuel { v with current := n } hl (Nat.lt_of_succ_lt_succ hf)

theorem mlinkedListAdd_spec {fuel b : Nat} {y : β} (h : IsList v.heap v.start l)
    (hb : v.heap b = some ⟨y, none⟩) (hfresh : b ∉ l.map Prod.fst) (hf : l.length < fuel) :
    ∃ v', mlinkedListAdd fuel (some b) v = .ok v' ∧ IsList v'.heap v'.start (l ++ [(b, y)]) ∧
      SamePayloads v.heap v'.heap ∧ v'.previous = v.previous ∧ v'.freenode = v.freenode := by
  rcases l.eq_nil_or_concat with rfl | ⟨l, ⟨a, x⟩, rfl⟩
  · refine ⟨{ v with start := some b, current := some b }, ?_, .cons hb (.nil none), .refl _, rfl,
      rfl⟩
    simp [mlinkedListAdd, IsList.nil_iff.mp h]
  · rw [List.concat_eq_append] at h hfresh hf ⊢
    have hstart : v.start ≠ none := h.start_ne (by simp)
    have hwalk := walkToLast l fuel { v with current := v.start } h (by simp at hf; omega)
    obtain ⟨r, hl, hr⟩ := Seg.append_iff.mp h
    obtain ⟨rfl, n, ha, hn⟩ := Seg.cons_iff.mp hr
    have hset := Store.setNext_of ha (some b)
    have hnodup : a ∉ l.map Prod.fst := h.middle_notMem.1
    have hab : b ≠ a := fun he => hfresh (by simp [he])
    refine ⟨{ v with heap := Function.update v.heap a (some ⟨x, some b⟩), current := some a }, ?_, ?_,
      samePayloads_setNext ha _, rfl, rfl⟩
    · simp only [mlinkedListAdd, if_neg hstart, hwalk, Outcome.ok_bind, hset]
      rfl
    · rw [List.append_assoc]
      refine Seg.append_iff.mpr ⟨some a, hl.update hnodup _, .cons (Function.update_self _ _ _) ?_⟩
      exact .cons ((Function.update_of_ne hab _ _).trans hb) (.nil none)

/-- Find leaves the first match in `current`, or `NULL`. -/
theorem mlinkedListFind_spec {fuel : Nat} (h : IsList v.heap v.start l) (hf : l.length < fuel) :
    mlinkedListFind check fuel handle v =
      .ok { v with current := (l.find? fun c => check handle c.2).map Prod.fst } := by
  have hloop : ∀ (l : List (Nat × β)) (fuel : Nat) (v : ListVars β), IsList v.heap v.current l →
      l.length < fuel → whileLoop (findCond check handle) advance fuel v =
        .ok { v with current := (l.find? fun c => check handle c.2).map Prod.fst } := by
    intro l
    induction l with
    | nil =>
      intro fuel v h hf
      obtain ⟨fuel, rfl⟩ : ∃ k, fuel = k + 1 := ⟨fuel - 1, by omega⟩
      have hc := IsList.nil_iff.mp h
      rw [whileLoop_exit (by simp [findCond, hc]), List.find?_nil, Option.map_none, ← hc]
    | cons c l ih =>
      obtain ⟨a, x⟩ := c
      intro fuel v h hf
      obtain ⟨fuel, rfl⟩ : ∃ k, fuel = k + 1 := ⟨fuel - 1, by omega⟩
      obtain ⟨hc, n, ha, hl⟩ := IsList.cons_iff.mp h
      by_cases hx : check handle x
      · rw [whileLoop_exit (by simp [findCond, hc, Store.load_of ha, hx])]
        simp [hx, ← hc]
      · rw [whileLoop_round (t := { v with current := n })
          (by simp [findCond, hc, Store.load_of ha, hx])
          (by simp [advance, hc, Store.load_of ha]), ih fuel _ hl (by simp at hf; omega)]
        simp [hx]
  unfold mlinkedListFind
  by_cases hs : v.start = none
  · rw [hs] at h
    rw [if_pos hs, h.start_none]
    rfl
  · rw [if_neg hs, hloop l fuel _ h hf]

theorem mlinkedListLength_spec {fuel : Nat} (h : IsList v.heap v.start l) (hf : l.length < fuel) :
    mlinkedListLength fuel v = .ok { v with length := l.length, current := none } := by
  have hloop : ∀ (l : List (Nat × β)) (fuel : Nat) (v : ListVars β), IsList v.heap v.current l →
      l.length < fuel → whileLoop (fun v => return decide (v.current ≠ none))
        (fun v => advance { v with length := v.length + 1 }) fuel v =
        .ok { v with length := v.length + l.length, current := none } := by
    intro l
    induction l with
    | nil =>
      intro fuel v h hf
      obtain ⟨fuel, rfl⟩ : ∃ k, fuel = k + 1 := ⟨fuel - 1, by omega⟩
      have hc := IsList.nil_iff.mp h
      rw [whileLoop_exit (by simp [hc]), List.length_nil, Nat.add_zero, ← hc]
    | cons c l ih =>
      obtain ⟨a, x⟩ := c
      intro fuel v h hf
      obtain ⟨fuel, rfl⟩ : ∃ k, fuel = k + 1 := ⟨fuel - 1, by omega⟩
      obtain ⟨hc, n, ha, hl⟩ := IsList.cons_iff.mp h
      rw [whileLoop_round (t := { v with length := v.length + 1, current := n }) (by simp [hc])
        (by simp [advance, hc, Store.load_of ha]), ih fuel _ hl (by simp at hf; omega),
          List.length_cons]
      simp only [Nat.add_assoc, Nat.add_comm 1]
  rw [mlinkedListLength, hloop l fuel _ h hf, Nat.zero_add]

/-! ## Remove -/

/-- The last of the nodes, or `p` if there is none. -/
def lastOr (p : Ptr) (l : List (Nat × β)) : Ptr := l.foldl (fun _ c => some c.1) p

section Round

variable {a : Nat} {x : β} {n : Ptr}

/-- A round at a node that stays. -/
theorem removeRound_keep (hc : v.current = some a) (ha : v.heap a = some ⟨x, n⟩)
    (hx : check handle x = false) :
    removeRound check handle v = .ok { v with previous := some a, current := n } := by
  simp [removeRound, removeAt, advance, hc, Store.load_of ha, hx]

/-- A round at a match with no `previous`: `start` moves on, and the node becomes `previous`. -/
theorem removeRound_head (hc : v.current = some a) (hp : v.previous = none)
    (ha : v.heap a = some ⟨x, n⟩) (hx : check handle x = true) :
    removeRound check handle v =
      .ok { v with start := n, current := n, previous := some a, freenode := some a } := by
  simp [removeRound, removeAt, advance, hc, hp, Store.load_of ha, hx]

/-- A round at a match behind `previous`: the node is unlinked. -/
theorem removeRound_behind {b : Nat} {y : β} (hc : v.current = some a) (hp : v.previous = some b)
    (hab : a ≠ b) (ha : v.heap a = some ⟨x, n⟩) (hb : v.heap b = some ⟨y, some a⟩)
    (hx : check handle x = true) :
    removeRound check handle v = .ok { v with
      heap := Function.update v.heap b (some ⟨y, n⟩), freenode := some a, current := n } := by
  have hset := Store.setNext_of hb n
  have hmoved : Function.update v.heap b (some ⟨y, n⟩) a = some ⟨x, n⟩ :=
    (Function.update_of_ne hab _ _).trans ha
  simp [removeRound, removeAt, advance, hc, hp, Store.load_of ha, hx, hset, Store.load_of hmoved]

end Round

/-- The loop with `previous` right behind what stays: every match is unlinked. -/
theorem removeLoop_behind : ∀ (rest pre : List (Nat × β)) (b : Nat) (y : β) (fuel : Nat)
    (v : ListVars β), IsList v.heap v.start (pre ++ (b, y) :: rest) → v.previous = some b →
    v.heap b = some ⟨y, v.current⟩ → rest.length < fuel →
    ∃ v', removeLoop check handle fuel v = .ok v' ∧
      IsList v'.heap v'.start (pre ++ (b, y) :: rest.filter fun c => !check handle c.2) ∧
      v'.freenode = lastOr v.freenode (rest.filter fun c => check handle c.2) ∧
      SamePayloads v.heap v'.heap ∧ v'.start = v.start ∧
      ((∀ c ∈ rest, check handle c.2 = false) → v'.heap = v.heap) := by
  intro rest
  induction rest with
  | nil =>
    intro pre b y fuel v h hp hb hf
    obtain ⟨fuel, rfl⟩ : ∃ k, fuel = k + 1 := ⟨fuel - 1, by omega⟩
    obtain ⟨r, _, hr⟩ := Seg.append_iff.mp h
    obtain ⟨rfl, n, hb', hn⟩ := Seg.cons_iff.mp hr
    rw [hb] at hb'
    cases hb'
    have hc : v.current = none := Seg.nil_iff.mp hn
    exact ⟨v, whileLoop_exit (by simp [hc]), h, rfl, .refl _, rfl, fun _ => rfl⟩
  | cons c rest ih =>
    obtain ⟨a, x⟩ := c
    intro pre b y fuel v h hp hb hf
    obtain ⟨fuel, rfl⟩ : ∃ k, fuel = k + 1 := ⟨fuel - 1, by omega⟩
    have hf : rest.length < fuel := by simp at hf; omega
    obtain ⟨r, hpre, hr⟩ := Seg.append_iff.mp h
    obtain ⟨rfl, n, hb', hr⟩ := Seg.cons_iff.mp hr
    rw [hb] at hb'
    cases hb'
    obtain ⟨hc, n, ha, hrest⟩ := Seg.cons_iff.mp hr
    -- the two nodes and all others are different nodes
    have hnodup := h.nodup
    simp only [List.map_append, List.map_cons, List.nodup_append, List.nodup_cons, List.mem_cons,
      not_or] at hnodup
    obtain ⟨_, ⟨⟨hba, hbrest⟩, _, _⟩, hapart⟩ := hnodup
    by_cases hx : check handle x
    · have hround := removeRound_behind hc hp (Ne.symm hba) ha (hc ▸ hb) hx
      obtain ⟨v', hloop, hlist, hfree, hsame, hstart, _⟩ := ih pre b y fuel
        { v with heap := Function.update v.heap b (some ⟨y, n⟩), freenode := some a, current := n }
        (Seg.append_iff.mpr ⟨some b, hpre.update (fun hmem => hapart b hmem b (.inl rfl) rfl) _,
          .cons (Function.update_self _ _ _) (hrest.update hbrest _)⟩)
        hp (Function.update_self _ _ _) hf
      refine ⟨v', ?_, ?_, ?_, (samePayloads_setNext hb n).trans hsame, hstart, fun hnone => ?_⟩
      · rw [removeLoop, whileLoop_round (by simp [hc]) hround]
        exact hloop
      · simpa [hx] using hlist
      · simpa [hx, lastOr] using hfree
      · have := hnone (a, x) List.mem_cons_self
        simp [hx] at this
    · have hround := removeRound_keep hc ha (Bool.eq_false_iff.mpr hx)
      obtain ⟨v', hloop, hlist, hfree, hsame, hstart, hheap⟩ := ih (pre ++ [(b, y)]) a x fuel
        { v with previous := some a, current := n } (by rw [List.append_assoc]; exact h) rfl ha hf
      refine ⟨v', ?_, ?_, ?_, hsame, hstart, fun hnone => hheap fun c hc =>
        hnone c (List.mem_cons_of_mem _ hc)⟩
      · rw [removeLoop, whileLoop_round (by simp [hc]) hround]
        exact hloop
      · simpa [hx] using hlist
      · simpa [hx] using hfree

/-- When remove does what it should: the head does not match, or else `previous` is
`NULL` and the node behind the head does not match. -/
def RemoveOk (check : η → β → Bool) (handle : η) (previous : Ptr) : List (Nat × β) → Prop
  | [] => True
  | c :: rest => check handle c.2 = false ∨
      (previous = none ∧ ∀ d ∈ rest.head?, check handle d.2 = false)

/-- Remove unlinks the matches, and `freenode` is the last of them; without a match it
changes nothing but cursors. -/
theorem mlinkedListRemove_spec {fuel : Nat} (h : IsList v.heap v.start l) (hf : l.length < fuel)
    (hok : RemoveOk check handle v.previous l) :
    ∃ v', mlinkedListRemove check fuel handle v = .ok v' ∧
      IsList v'.heap v'.start (l.filter fun c => !check handle c.2) ∧
      v'.freenode = lastOr v.freenode (l.filter fun c => check handle c.2) ∧
      SamePayloads v.heap v'.heap ∧
      ((∀ c ∈ l, check handle c.2 = false) → v'.heap = v.heap ∧ v'.start = v.start) := by
  unfold mlinkedListRemove
  cases l with
  | nil =>
    refine ⟨v, ?_, h, rfl, .refl _, fun _ => ⟨rfl, rfl⟩⟩
    simp [IsList.nil_iff.mp h]
  | cons c rest =>
    obtain ⟨a, x⟩ := c
    obtain ⟨hs, n, ha, hrest⟩ := IsList.cons_iff.mp h
    obtain ⟨fuel, rfl⟩ : ∃ k, fuel = k + 1 := ⟨fuel - 1, by omega⟩
    have hf : rest.length < fuel := by simp at hf; omega
    rw [if_pos (by simp [hs])]
    by_cases hx : check handle x
    · -- the head goes, and the next node is taken over as it is
      obtain ⟨hp, hsecond⟩ := hok.resolve_left (by simp [hx])
      have hmatch : ¬ ∀ c ∈ (a, x) :: rest, check handle c.2 = false := fun hnone => by
        have := hnone (a, x) List.mem_cons_self
        simp [hx] at this
      have hround := removeRound_head (v := { v with current := v.start }) hs hp ha hx
      rw [removeLoop, whileLoop_round (by simp [hs]) hround]
      cases rest with
      | nil =>
        obtain ⟨fuel, rfl⟩ : ∃ k, fuel = k + 1 := ⟨fuel - 1, by omega⟩
        have hn := IsList.nil_iff.mp hrest
        refine ⟨_, whileLoop_exit (by simp [hn]), ?_, ?_, .refl _, fun hnone => absurd hnone hmatch⟩
        · simpa [hx] using hrest
        · simp [hx, lastOr]
      | cons d rest =>
        obtain ⟨b, y⟩ := d
        obtain ⟨rfl, m, hb, _⟩ := IsList.cons_iff.mp hrest
        have hy : check handle y = false := hsecond (b, y) rfl
        obtain ⟨fuel, rfl⟩ : ∃ k, fuel = k + 1 := ⟨fuel - 1, by omega⟩
        have hround := removeRound_keep (v := { v with
          start := some b, current := some b, previous := some a, freenode := some a }) rfl hb hy
        rw [whileLoop_round (by simp) hround]
        obtain ⟨v', hloop, hlist, hfree, hsame, _⟩ := removeLoop_behind rest [] b y fuel
          { v with start := some b, current := m, previous := some b, freenode := some a }
          hrest rfl hb
          (by simp at hf; omega)
        exact ⟨v', hloop, by simpa [hx, hy] using hlist, by simpa [hx, hy, lastOr] using hfree, hsame,
          fun hnone => absurd hnone hmatch⟩
    · have hround := removeRound_keep (v := { v with current := v.start }) hs ha
        (Bool.eq_false_iff.mpr hx)
      rw [removeLoop, whileLoop_round (by simp [hs]) hround]
      obtain ⟨v', hloop, hlist, hfree, hsame, hstart, hheap⟩ := removeLoop_behind rest [] a x fuel
        { v with current := n, previous := some a } h rfl ha hf
      exact ⟨v', hloop, by simpa [hx] using hlist, by simpa [hx] using hfree, hsame,
        fun hnone => ⟨hheap fun c hc => hnone c (List.mem_cons_of_mem _ hc), hstart⟩⟩

/-- With `previous` not `NULL`, its loop never moves `start`. -/
theorem removeLoop_start {fuel : Nat} (hp : v.previous ≠ none)
    (h : removeLoop check handle fuel v = .ok v') : v'.start = v.start := by
  refine (whileLoop_keeps (fun u => u.previous ≠ none ∧ u.start = v.start) ?_ _ _ _ ⟨hp, rfl⟩ h).2
  rintro u w ⟨hu, hs⟩ hc hround
  have hcur : u.current ≠ none := by simpa using hc
  obtain ⟨t, hat, hround⟩ := Outcome.bind_eq_ok.mp hround
  obtain ⟨_, _, hround⟩ := Outcome.bind_eq_ok.mp hround
  cases hround
  obtain ⟨node, _, hat⟩ := Outcome.bind_eq_ok.mp hat
  split at hat
  · obtain ⟨_, _, hat⟩ := Outcome.bind_eq_ok.mp hat
    cases hat
    exact ⟨hu, hs⟩
  · cases hat
    exact ⟨hcur, hs⟩

/-- With `previous` left over from before, remove never moves `start`. -/
theorem mlinkedListRemove_start {fuel : Nat} (hp : v.previous ≠ none)
    (h : mlinkedListRemove check fuel handle v = .ok v') : v'.start = v.start := by
  unfold mlinkedListRemove at h
  split at h
  · have hstart := removeLoop_start (v := { v with current := v.start }) hp h
    exact hstart
  · cases h
    rfl

end Mikelibc.Linked
