import Mikelibc.Queue.Linear

/-! # The order of the items

Several producers put items on one queue and several consumers take them off. A consumer gets what
it gets of one producer's items in the order in which the producer has put them there; and a single
consumer gets all of them (`producers_in_order`). -/
namespace Mikelibc.Queue
open CSem Monitor

variable {α τ : Type}

/-! ## Items in a history -/

def itemSent : Event τ (Option (Call α)) (Ret α) → Option (VoidPtr α)
  | .call _ (some (.enqueue x)) => some x
  | .call _ (some .dequeue) | .call _ none | .ret _ _ => none

def itemGot : Event τ (Option (Call α)) (Ret α) → Option (VoidPtr α)
  | .ret _ (.item x) => some x
  | .ret _ (.count _) | .ret _ .done | .call _ _ => none

def itemPut : Option (Call α) × Ret α → Option (VoidPtr α)
  | (some (.enqueue x), _) => some x
  | (some .dequeue, _) | (none, _) => none

def itemTaken : Option (Call α) × Ret α → Option (VoidPtr α)
  | (_, .item x) => some x
  | (_, .count _) | (_, .done) => none

section Histories
variable [DecidableEq τ]

def sent (t : τ) (H : List (Event τ (Option (Call α)) (Ret α))) : List (VoidPtr α) :=
  (seenBy t H).filterMap itemSent

def received (t : τ) (H : List (Event τ (Option (Call α)) (Ret α))) : List (VoidPtr α) :=
  (seenBy t H).filterMap itemGot

end Histories

theorem sequence_items (t : τ) (ops : List (Option (Call α) × Ret α)) :
    (sequence t ops).filterMap itemSent = ops.filterMap itemPut ∧
    (sequence t ops).filterMap itemGot = ops.filterMap itemTaken := by
  induction ops with
  | nil => exact ⟨rfl, rfl⟩
  | cons o ops ih =>
    obtain ⟨c, r⟩ := o
    have hsplit : sequence t ((c, r) :: ops) = [.call t c, .ret t r] ++ sequence t ops :=
      List.flatMap_cons
    rw [hsplit, List.filterMap_append, List.filterMap_append, ih.1, ih.2, List.filterMap_cons,
      List.filterMap_cons]
    constructor
    · cases c with
      | none => rfl
      | some c => cases c <;> rfl
    · cases r <;> rfl

theorem agrees_mem {t : τ} {h : List (Event τ (Option (Call α)) (Ret α))}
    {ops : List (Option (Call α) × Ret α)} (hagrees : Agrees t h ops)
    {o : Option (Call α) × Ret α} (ho : o ∈ ops) : Event.call t o.1 ∈ h := by
  have hcall : Event.call t o.1 ∈ sequence t ops :=
    List.mem_flatMap.mpr ⟨o, ho, List.mem_cons_self⟩
  obtain rfl | ⟨c, rfl⟩ | ⟨r, hr⟩ := hagrees
  · exact hcall
  · exact List.mem_append_left _ hcall
  · rw [← hr] at hcall
    simpa using hcall

/-- What a thread has handed over is what its operations have put there, and perhaps one more. -/
theorem agrees_sent {t : τ} {h : List (Event τ (Option (Call α)) (Ret α))}
    {ops : List (Option (Call α) × Ret α)} (hagrees : Agrees t h ops) :
    ops.filterMap itemPut <+: h.filterMap itemSent := by
  rw [← (sequence_items t ops).1]
  obtain rfl | ⟨c, rfl⟩ | ⟨r, hr⟩ := hagrees
  · exact List.prefix_rfl
  · rw [List.filterMap_append]
    exact List.prefix_append _ _
  · have hnone : [Event.ret t r].filterMap itemSent = ([] : List (VoidPtr α)) := rfl
    rw [← hr, List.filterMap_append, hnone, List.append_nil]

/-- What a thread has got is what its operations have taken, but perhaps for the last. -/
theorem agrees_received {t : τ} {h : List (Event τ (Option (Call α)) (Ret α))}
    {ops : List (Option (Call α) × Ret α)} (hagrees : Agrees t h ops) :
    h.filterMap itemGot <+: ops.filterMap itemTaken := by
  rw [← (sequence_items t ops).2]
  obtain rfl | ⟨c, rfl⟩ | ⟨r, hr⟩ := hagrees
  · exact List.prefix_rfl
  · have hnone : [Event.call t c].filterMap itemGot = ([] : List (VoidPtr α)) := rfl
    rw [List.filterMap_append, hnone, List.append_nil]
  · rw [← hr, List.filterMap_append]
    exact List.prefix_append _ _

/-! ## The order on the queue -/

/-- The items come off the queue in the order in which they are put on it. -/
theorem Fifo.Serves.items {bound : Nat} {S : List (τ × Option (Call α) × Ret α)}
    {l : List (VoidPtr α)} (h : Fifo.Serves bound S l) :
    (S.map Prod.snd).filterMap itemPut = (S.map Prod.snd).filterMap itemTaken ++ l := by
  induction h with
  | start => rfl
  | @serve S l t c r _ hpass hans ih =>
    rw [List.map_append, List.filterMap_append, List.filterMap_append, ih]
    cases c with
    | none =>
      cases hans
      exact (List.append_nil _).trans (congrArg (· ++ l) (List.append_nil _)).symm
    | some c =>
      cases c with
      | enqueue x =>
        have hroom : ¬ (0 < bound ∧ l.length = bound) := hpass
        rw [Call.op, Fifo.step, if_neg hroom] at hans ⊢
        cases hans
        simp [itemPut, itemTaken]
      | dequeue =>
        cases l with
        | nil => exact absurd rfl hpass
        | cons x l => cases hans; simp [itemPut, itemTaken, Call.op, Fifo.step]

theorem Fifo.Serves.takes {bound : Nat} {S : List (τ × Option (Call α) × Ret α)}
    {l : List (VoidPtr α)} (h : Fifo.Serves bound S l) :
    ∀ o ∈ S, ∀ x, itemTaken o.2 = some x → o.2.1 = some .dequeue := by
  induction h with
  | start => intro o ho; cases ho
  | @serve S l t c r _ hpass hans ih =>
    intro o ho x hx
    obtain ho | ho := List.mem_append.mp ho
    · exact ih o ho x hx
    · obtain rfl := List.mem_singleton.mp ho
      cases c with
      | none => cases hans; cases hx
      | some c =>
        cases c with
        | enqueue y =>
          have hroom : ¬ (0 < bound ∧ l.length = bound) := hpass
          rw [Call.op, Fifo.step, if_neg hroom] at hans
          cases hans
          cases hx
        | dequeue => rfl

section Orders
variable [DecidableEq τ]

/-- What one thread's operations have to do with items, among those of all. -/
theorem opsOf_sublist (t : τ) (S : List (τ × Option (Call α) × Ret α))
    (item : Option (Call α) × Ret α → Option (VoidPtr α)) :
    ((opsOf t S).filterMap item).Sublist ((S.map Prod.snd).filterMap item) :=
  (List.filter_sublist.map _).filterMap _

/-- All that there is to it, when the others have nothing to do with items. -/
theorem opsOf_eq {t : τ} {S : List (τ × Option (Call α) × Ret α)}
    {item : Option (Call α) × Ret α → Option (VoidPtr α)}
    (h : ∀ o ∈ S, ∀ x, item o.2 = some x → o.1 = t) :
    (opsOf t S).filterMap item = (S.map Prod.snd).filterMap item := by
  induction S with
  | nil => rfl
  | cons o S ih =>
    have hrest := ih fun o' ho => h o' (List.mem_cons_of_mem _ ho)
    have hsplit : opsOf t (o :: S) = opsOf t [o] ++ opsOf t S := opsOf_append t [o] S
    rw [hsplit, List.filterMap_append, hrest, List.map_cons, List.filterMap_cons]
    by_cases ht : o.1 = t
    · cases hitem : item o.2 <;> simp [opsOf, ht, hitem]
    · have hnone : item o.2 = none := by
        by_contra hsome
        obtain ⟨x, hx⟩ := Option.ne_none_iff_exists'.mp hsome
        exact ht (h o List.mem_cons_self x hx)
      simp [opsOf, ht, hnone]

/-- The items of one producer are those that its own operations have put there. -/
theorem filter_owner {owner : VoidPtr α → τ} {p : τ} {S : List (τ × Option (Call α) × Ret α)}
    (h : ∀ o ∈ S, ∀ x, itemPut o.2 = some x → owner x = o.1) :
    ((S.map Prod.snd).filterMap itemPut).filter (owner · = p) = (opsOf p S).filterMap itemPut := by
  induction S with
  | nil => rfl
  | cons o S ih =>
    have hrest := ih fun o' ho => h o' (List.mem_cons_of_mem _ ho)
    have hsplit : opsOf p (o :: S) = opsOf p [o] ++ opsOf p S := opsOf_append p [o] S
    rw [hsplit, List.filterMap_append, ← hrest, List.map_cons, List.filterMap_cons]
    cases hitem : itemPut o.2 with
    | none => by_cases hp : o.1 = p <;> simp [opsOf, hp, hitem]
    | some x =>
      have howner := h o List.mem_cons_self x hitem
      by_cases hp : o.1 = p <;> simp [opsOf, hp, hitem, howner]

variable [Fintype τ] {malloc : Nat → Bool}

/-- **Items keep their order.** In every run of any number of threads, at any time, what a consumer
has got of the items of one producer is a part of what this producer has handed over, in the same
order; and where it is the only one that dequeues, the items come without a gap. -/
theorem producers_in_order (hm : ∀ n, malloc n = true) {initialSize maxSize : UInt64}
    (h₀ : Bounded (initialQueue initialSize maxSize : Mqueue α))
    {H : List (Event τ (Option (Call α)) (Ret α))}
    {s : State τ (Mqueue α) (Option (Call α)) (Ret α)}
    (h : (observed malloc).Traces Bounded (initialQueue initialSize maxSize) H s)
    (owner : VoidPtr α → τ) (howner : ∀ t x, .call t (some (.enqueue x)) ∈ H → owner x = t)
    (p c : τ) :
    ((received c H).filter (owner · = p)).Sublist (sent p H) ∧
    ((∀ t, .call t (some .dequeue) ∈ H → t = c) →
      (received c H).filter (owner · = p) <+: sent p H) := by
  obtain ⟨l, _, hserves⟩ := observed_serves hm h₀ h
  have hagrees := h.linearizes.threads
  have hseen : ∀ o ∈ s.log, .call o.1 o.2.1 ∈ H := fun o ho => by
    have hops : o.2 ∈ opsOf o.1 s.log :=
      List.mem_map_of_mem (List.mem_filter.mpr ⟨ho, decide_eq_true rfl⟩)
    exact List.mem_of_mem_filter (agrees_mem (hagrees o.1) hops)
  have hput : ∀ o ∈ s.log, ∀ x, itemPut o.2 = some x → owner x = o.1 := fun o ho x hx => by
    have hcall := hseen o ho
    obtain ⟨t, c, r⟩ := o
    match c with
    | some (.enqueue y) => cases hx; exact howner t _ hcall
    | some .dequeue | none => cases hx
  -- what has been taken of the producer's items begins what it has put there
  have htaken : ((s.log.map Prod.snd).filterMap itemTaken).filter (owner · = p) <+:
      (opsOf p s.log).filterMap itemPut := by
    rw [← filter_owner hput, hserves.items, List.filter_append]
    exact List.prefix_append _ _
  have hsent : (opsOf p s.log).filterMap itemPut <+: sent p H := agrees_sent (hagrees p)
  have hgot : received c H <+: (opsOf c s.log).filterMap itemTaken := agrees_received (hagrees c)
  refine ⟨?_, fun honly => ?_⟩
  · have hpart := hgot.sublist.trans (opsOf_sublist c s.log itemTaken)
    exact (hpart.filter _).trans (htaken.sublist.trans hsent.sublist)
  · have hall : (opsOf c s.log).filterMap itemTaken = (s.log.map Prod.snd).filterMap itemTaken := by
      refine opsOf_eq fun o ho x hx => honly _ ?_
      have hcall := hseen o ho
      rwa [hserves.takes o ho x hx] at hcall
    rw [hall] at hgot
    exact (hgot.filter _).trans (htaken.trans hsent)

end Orders

/-- Two producers, and a consumer that gets an item of each and then the second one of the first. -/
theorem producers_in_order_merge :
    ∃ (H : List (Event (Fin 3) (Option (Call (Fin 3 × Nat))) (Ret (Fin 3 × Nat))))
      (s : State (Fin 3) (Mqueue (Fin 3 × Nat)) (Option (Call (Fin 3 × Nat))) (Ret (Fin 3 × Nat))),
      (observed fun _ => true).Traces Bounded (initialQueue 1 0) H s ∧
      received 2 H = [some (0, 1), some (1, 5), some (0, 2)] ∧
      (received 2 H).filter (fun x => (x.elim 2 Prod.fst) = 0) <+: sent 0 H := by
  let round (t : Fin 3) (c : Option (Call (Fin 3 × Nat))) : List (Act (Fin 3) _) :=
    [.call t c, .lock t, .test t, .body t, .signal t none, .leave t]
  obtain ⟨⟨H, s⟩, hs, hH⟩ := (Option.any_eq_true _ _).mp (by decide +kernel :
    ((observed fun _ => true).trace Bounded [] (State.start (initialQueue 1 0))
      (round 0 (some (.enqueue (some (0, 1)))) ++ round 1 (some (.enqueue (some (1, 5)))) ++
        round 2 (some .dequeue) ++ round 0 (some (.enqueue (some (0, 2)))) ++
        round 2 (some .dequeue) ++ round 2 (some .dequeue))).any
      (fun q => decide (received 2 q.1 = [some (0, 1), some (1, 5), some (0, 2)]) &&
        q.1.all fun e => match e with
          | .call t (some (.enqueue x)) => x.elim 2 Prod.fst = t
          | .call t (some .dequeue) => t = 2
          | .call _ none | .ret _ _ => true) = true)
  obtain ⟨hgot, hcalls⟩ := Bool.and_eq_true_iff.mp hH
  have hcalls := List.all_eq_true.mp hcalls
  have htraces := Code.Traces.start.trace hs
  refine ⟨H, s, htraces, of_decide_eq_true hgot, (producers_in_order (fun _ => rfl) (by decide)
    htraces (fun x => x.elim 2 Prod.fst) (fun t x hx => ?_) 0 2).2 fun t ht => ?_⟩
  · exact of_decide_eq_true (hcalls _ hx)
  · exact of_decide_eq_true (hcalls _ ht)

end Mikelibc.Queue
