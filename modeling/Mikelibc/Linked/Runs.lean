import Mikelibc.Linked.Macros

/-! # Runs of the macros on one set of variables

A caller adds, finds, counts and removes nodes with the same variables throughout.
Nothing resets `previous`, and remove takes a `previous` that is not `NULL` for
the node before the head: so the run is the run of a list exactly as long as no
remove finds its match at the head with `previous` left over from an earlier
one (`macros_refine_iff`). -/
namespace Mikelibc.Linked
open CSem

variable {β η : Type} {check : η → β → Bool}

/-- The abstract list, and the nodes the caller has added so far. -/
structure Nodes (β : Type) where
  nodes : List (Nat × β)
  used : List Nat

def Nodes.step (check : η → β → Bool) (a : Nodes β) : Op β η → Nodes β × Ret
  | .add node payload => (⟨a.nodes ++ [(node, payload)], node :: a.used⟩, .done)
  | .find handle => (a, .found ((a.nodes.find? fun c => check handle c.2).map Prod.fst))
  | .length => (a, .length a.nodes.length)
  | .remove handle => ({ a with nodes := a.nodes.filter fun c => !check handle c.2 }, .done)

/-- The caller adds fresh nodes and removes by handles that match one node at most. -/
def Careful (check : η → β → Bool) (a : Nodes β) : Op β η → Prop
  | .add node _ => node ∉ a.used
  | .remove handle => (a.nodes.filter fun c => check handle c.2).length ≤ 1
  | .find _ | .length => True

/-- The variables stand for the list. -/
def Stands (v : ListVars β) (a : Nodes β) : Prop := IsList v.heap v.start a.nodes

def headMatches (check : η → β → Bool) (handle : η) (v : ListVars β) : Bool :=
  match v.heap.load v.start with
  | .ok node => check handle node.payload
  | _ => false

/-- Remove starts with `previous == NULL`, or its match is not at the head. -/
def RemoveReady (check : η → β → Bool) (v : ListVars β) : Op β η → Prop
  | .remove handle => v.previous = none ∨ headMatches check handle v = false
  | .add _ _ | .find _ | .length => True

instance RemoveReady.decide (v : ListVars β) (o : Op β η) : Decidable (RemoveReady check v o) :=
  match o with
  | .remove _ => inferInstanceAs (Decidable (_ ∨ _))
  | .add _ _ | .find _ | .length => isTrue trivial

/-- The list, and no node that has not been added. -/
def Tidy (v : ListVars β) (a : Nodes β) : Prop := Stands v a ∧ ∀ n ∉ a.used, v.heap n = none

theorem headMatches_cons {v : ListVars β} {n : Nat} {x : β} {l : List (Nat × β)}
    (h : IsList v.heap v.start ((n, x) :: l)) (handle : η) :
    headMatches check handle v = check handle x := by
  obtain ⟨hs, _, hn, _⟩ := IsList.cons_iff.mp h
  simp [headMatches, hs, Store.load_of hn]

theorem removeOk_of_ready {v : ListVars β} {a : Nodes β} {handle : η} (h : Stands v a)
    (hone : (a.nodes.filter fun c => check handle c.2).length ≤ 1)
    (hready : RemoveReady check v (.remove handle)) : RemoveOk check handle v.previous a.nodes := by
  unfold Stands at h
  cases hl : a.nodes with
  | nil => trivial
  | cons c rest =>
    obtain ⟨n, x⟩ := c
    rw [hl] at h hone
    by_cases hx : check handle x
    · refine .inr ⟨hready.resolve_right (by simp [headMatches_cons h, hx]), fun d hd => ?_⟩
      cases rest with
      | nil => cases hd
      | cons d' rest =>
        cases hd
        by_contra hd
        rw [Bool.not_eq_false] at hd
        simp [hx, hd] at hone
    · exact .inl (by simpa using hx)

/-- A macro with enough rounds, used as it may be. -/
theorem step_good {fuel : Nat} {v : ListVars β} {a : Nodes β} {o : Op β η} (h : Tidy v a)
    (hE : a.nodes.length < fuel ∧ Careful check a o) (hready : RemoveReady check v o) :
    ∃ v' r, step check fuel v o = .ok (v', r) ∧ (a.step check o).2 = r ∧
      Tidy v' (a.step check o).1 := by
  obtain ⟨hlist, hunused⟩ := h
  obtain ⟨hf, hcare⟩ := hE
  cases o with
  | add node payload =>
    have hfresh : node ∉ a.nodes.map Prod.fst := by
      intro hmem
      obtain ⟨⟨n, x⟩, hc, rfl⟩ := List.mem_map.mp hmem
      obtain ⟨m, hm⟩ := hlist.cell hc
      rw [hunused n hcare] at hm
      cases hm
    obtain ⟨v', hv', hlist', hsame, _⟩ := mlinkedListAdd_spec (l := a.nodes) (y := payload)
      (v := { v with heap := Function.update v.heap node (some ⟨payload, none⟩) })
      (hlist.update hfresh _) (Function.update_self _ _ _) hfresh hf
    refine ⟨v', .done, by simp [step, hv'], rfl, hlist', fun n hn => ?_⟩
    simp only [Nodes.step, List.mem_cons, not_or] at hn
    exact (hsame.none_iff n).mpr ((Function.update_of_ne hn.1 _ _).trans (hunused n hn.2))
  | find handle =>
    refine ⟨{ v with current := (a.nodes.find? fun c => check handle c.2).map Prod.fst }, _, ?_, rfl,
      hlist, hunused⟩
    rw [step, mlinkedListFind_spec hlist hf]
    rfl
  | length =>
    refine ⟨{ v with length := a.nodes.length, current := none }, _, ?_, rfl, hlist, hunused⟩
    rw [step, mlinkedListLength_spec hlist hf]
    rfl
  | remove handle =>
    obtain ⟨v', hv', hlist', _, hsame, _⟩ :=
      mlinkedListRemove_spec hlist hf (removeOk_of_ready hlist hcare hready)
    exact ⟨v', .done, by simp [step, hv'], rfl, hlist', fun n hn => by
      rw [hsame.none_iff]; exact hunused n hn⟩

/-- A remove that is not ready leaves the head where it is. -/
theorem step_bad {fuel : Nat} {v v' : ListVars β} {a : Nodes β} {o : Op β η} {r : Ret} (h : Tidy v a)
    (hready : ¬ RemoveReady check v o) (hstep : step check fuel v o = .ok (v', r)) :
    ¬ Stands v' (a.step check o).1 := by
  cases o with
  | add | find | length => exact absurd trivial hready
  | remove handle =>
    obtain ⟨hp, hhead⟩ := not_or.mp hready
    obtain ⟨u, hu, hstep⟩ := Outcome.bind_eq_ok.mp hstep
    cases hstep
    have hstart := mlinkedListRemove_start hp hu
    obtain ⟨hlist, _⟩ := h
    intro hafter
    simp only [Stands, Nodes.step, hstart] at hlist hafter
    cases hl : a.nodes with
    | nil => rw [hl] at hlist; simp [headMatches, IsList.nil_iff.mp hlist, Store.load] at hhead
    | cons c rest =>
      obtain ⟨n, x⟩ := c
      rw [hl] at hlist hafter
      rw [headMatches_cons hlist, Bool.not_eq_false] at hhead
      have hnodup := hlist.nodup
      rw [hlist.start_eq, List.filter_cons_of_neg (by simp [hhead])] at hafter
      rw [List.map_cons, List.nodup_cons] at hnodup
      cases hf : rest.filter fun c => !check handle c.2 with
      | nil => rw [hf] at hafter; cases IsList.nil_iff.mp hafter
      | cons d rest' =>
        obtain ⟨m, y⟩ := d
        rw [hf] at hafter
        cases hafter.start_eq
        have hmem : (n, y) ∈ rest := List.mem_of_mem_filter (hf ▸ List.mem_cons_self)
        exact hnodup.1 (List.mem_map.mpr ⟨_, hmem, rfl⟩)

/-- There are no more nodes than macros, so a round for each is enough. -/
theorem legal_fuel {fuel : Nat} : ∀ (ops : List (Op β η)) (a : Nodes β),
    a.nodes.length + ops.length < fuel → Legal (Nodes.step check) (Careful check) a ops →
    Legal (Nodes.step check) (fun a o => a.nodes.length < fuel ∧ Careful check a o) a ops
  | [], _, _, _ => trivial
  | o :: ops, a, hf, ⟨hc, h⟩ => by
    simp only [List.length_cons] at hf
    refine ⟨⟨by omega, hc⟩, legal_fuel ops _ ?_ h⟩
    cases o with
    | add node payload => simp only [Nodes.step, List.length_append, List.length_singleton]; omega
    | find | length => simp only [Nodes.step]; omega
    | remove handle =>
      have := List.length_filter_le (fun c => !check handle c.2) a.nodes
      simp only [Nodes.step]
      omega

/-- **When the macros refine a list.** Along a run of a careful caller, `start` stands for
the abstract list, every macro ends, find and length answer right and remove removes, exactly
when every remove whose match is at the head finds `previous` still `NULL`. -/
theorem macros_refine_iff (check : η → β → Bool) (ops : List (Op β η)) (fuel : Nat)
    (hfuel : ops.length < fuel) (hcare : Legal (Nodes.step check) (Careful check) ⟨[], []⟩ ops) :
    Follows (step check fuel) (Nodes.step check) Stands Eq noList ⟨[], []⟩ ops ↔
      ∀ p ∈ visits (step check fuel) noList ops, RemoveReady check p.1 p.2 :=
  follows_iff (Nodes.step check) Stands Tidy Eq _ (RemoveReady check) (fun _ _ h => h.1)
    (fun _ _ _ h hE hready => step_good h hE hready)
    (fun _ _ _ _ _ h _ hready hstep => step_bad h hready hstep) ops noList ⟨[], []⟩
    ⟨.nil none, fun _ _ => rfl⟩ (legal_fuel ops _ (by simpa using hfuel) hcare)

def threeNodes : List (Op Nat Nat) := [.add 1 1, .add 2 2, .add 3 3]

/-- As long as only one node is removed, all is well. -/
theorem macros_refine_one_remove :
    Follows (step (fun h k : Nat => h == k) 9) (Nodes.step fun h k => h == k) Stands Eq noList
      ⟨[], []⟩
      (threeNodes ++ [.length, .find 2, .find 3, .remove 2, .length]) := by
  refine (macros_refine_iff _ _ 9 (by decide) ?_).mpr ?_
  · simp [Legal, threeNodes, Careful, Nodes.step]
  · decide +kernel

/-- Removing the second of three nodes leaves `previous` at the third; removing the head
then makes the third node its own successor, and the loop does not end. -/
theorem macros_loop :
    ¬ ∀ ops : List (Op Nat Nat),
      Legal (Nodes.step fun h k => h == k) (Careful fun h k => h == k) ⟨[], []⟩ ops →
      Follows (step (fun h k => h == k) (ops.length + 1)) (Nodes.step fun h k => h == k) Stands Eq
        noList ⟨[], []⟩ ops := by
  intro h
  obtain ⟨t, rs, hrun⟩ := (h (threeNodes ++ [.remove 2, .remove 1])
    (by simp [Legal, threeNodes, Careful, Nodes.step])).run
  have hhang : runOps (step (fun h k : Nat => h == k) 6) noList
      (threeNodes ++ [.remove 2, .remove 1]) = .hang := rfl
  rw [show (threeNodes ++ [.remove 2, .remove 1] : List (Op Nat Nat)).length + 1 = 6 from rfl,
    hhang] at hrun
  cases hrun

end Mikelibc.Linked
