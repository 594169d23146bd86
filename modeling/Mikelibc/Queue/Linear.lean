import Mikelibc.Lib.Linear
import Mikelibc.Queue.Programs

/-! # The threaded queue, from outside

Any number of threads call `mqueue_enqueue`, `mqueue_dequeue` and `mqueue_size` on one queue. What
they see is what they would see if every call were served at one moment between its start and its
return, by a bounded list (`mqueue_linearizable`). -/
namespace Mikelibc.Queue
open CSem Monitor

variable {α : Type} {malloc : Nat → Bool}

/-- The calls of the threads; `none` is `mqueue_size`, which locks the mutex and looks. -/
def observed (malloc : Nat → Bool) :
    Monitor.Code (Mqueue α) (Option (Call α)) (Ret α) (Option Cond) :=
  (threaded malloc).looking fun q => .count (mqueueSize q)

/-! ## The abstract queue that waits -/

def Call.op : Option (Call α) → Op α
  | some (.enqueue x) => .enqueue x
  | some .dequeue => .dequeue
  | none => .size

/-- The abstract queue has the call wait: an enqueue for room, a dequeue for an item. -/
def Fifo.Waits (bound : Nat) (l : List (VoidPtr α)) : Option (Call α) → Prop
  | some (.enqueue _) => 0 < bound ∧ l.length = bound
  | some .dequeue => l = []
  | none => False

/-- The operations, one after the other on the empty queue: none of them has to wait, each gets the
answer of the abstract queue, and `l` is left on it. -/
inductive Fifo.Serves {τ : Type} (bound : Nat) :
    List (τ × Option (Call α) × Ret α) → List (VoidPtr α) → Prop
  | start : Serves bound [] []
  | serve {S : List (τ × Option (Call α) × Ret α)} {l : List (VoidPtr α)} {t : τ}
      {c : Option (Call α)} {r : Ret α} : Serves bound S l → ¬ Fifo.Waits bound l c →
      Answers (Fifo.step bound l (Call.op c)).2 r →
      Serves bound (S ++ [(t, c, r)]) (Fifo.step bound l (Call.op c)).1

/-- A critical section serves the call, if its guard lets it pass. -/
theorem body_serves (hm : ∀ n, malloc n = true) {q q' : Mqueue α} {l : List (VoidPtr α)}
    (h : Represents q l) (hb : Bounded q) {c : Option (Call α)} {r : Ret α}
    (hpass : (observed malloc).blocked c q = false)
    (hbody : (observed malloc).body c q = .ok (q', r)) :
    ¬ Fifo.Waits q.maxSize.toNat l c ∧
    Answers (Fifo.step q.maxSize.toNat l (Call.op c)).2 r ∧
    Represents q' (Fifo.step q.maxSize.toNat l (Call.op c)).1 ∧ q'.maxSize = q.maxSize := by
  obtain ⟨q₁, r₁, hstep, hrep, hmax, hans⟩ := step_spec hm h hb (Call.op c)
  cases c with
  | none =>
    cases hbody
    cases hstep
    exact ⟨id, hans, hrep, hmax⟩
  | some c =>
    cases c with
    | enqueue x =>
      have hnot : ¬ AtMax q := of_decide_eq_false hpass
      obtain ⟨n, hq, rfl⟩ := body_enqueue hbody
      simp only [step, Call.op, mqueueEnqueue, if_neg hnot, hq] at hstep
      cases hstep
      exact ⟨fun hwait => hnot (h.atMax_iff.mpr hwait), hans, hrep, hmax⟩
    | dequeue =>
      have hne : ¬ IsEmpty q := of_decide_eq_false hpass
      obtain ⟨p, hq, rfl⟩ := @body_dequeue _ malloc _ _ _ hbody
      simp only [step, Call.op, mqueueDequeue, if_neg hne, hq] at hstep
      cases hstep
      exact ⟨fun hwait => hne (h.isEmpty_iff.mpr hwait), hans, hrep, hmax⟩

section Runs
variable {τ : Type} [Fintype τ] [DecidableEq τ]

/-- The operations whose critical sections have run are served by a bounded list. -/
theorem observed_serves (hm : ∀ n, malloc n = true) {initialSize maxSize : UInt64}
    (h₀ : Bounded (initialQueue initialSize maxSize : Mqueue α))
    {H : List (Event τ (Option (Call α)) (Ret α))}
    {s : State τ (Mqueue α) (Option (Call α)) (Ret α)}
    (h : (observed malloc).Traces Bounded (initialQueue initialSize maxSize) H s) :
    ∃ l, Represents s.shared l ∧ Fifo.Serves maxSize.toNat s.log l := by
  obtain ⟨_, l, hrep, _, hserves⟩ := h.run.log_invariant
    (fun q log => ∃ l, Represents q l ∧ q.maxSize = maxSize ∧ Fifo.Serves maxSize.toNat log l) h₀
    ⟨[], initialQueue_represents h₀, rfl, .start⟩
    (fun q log t c q' r hinv hb hpass hbody => by
      obtain ⟨l, hrep, hmax, hserves⟩ := hinv
      obtain ⟨hnowait, hans, hrep', hmax'⟩ := body_serves hm hrep hb hpass hbody
      rw [hmax] at hnowait hans hrep'
      exact ⟨_, hrep', hmax'.trans hmax, hserves.serve hnowait hans⟩)
  exact ⟨l, hrep, hserves⟩

/-- **The threaded queue is linearizable.** In every run of any number of threads, at any time, what
the threads have seen of their calls is what they would see of some order of them, served one after
the other by a bounded list: an enqueue when there is room, a dequeue when there is an item. The
order does not contradict real time, and leaves what the queue holds. -/
theorem mqueue_linearizable (hm : ∀ n, malloc n = true) {initialSize maxSize : UInt64}
    (h₀ : Bounded (initialQueue initialSize maxSize : Mqueue α))
    {H : List (Event τ (Option (Call α)) (Ret α))}
    {s : State τ (Mqueue α) (Option (Call α)) (Ret α)}
    (h : (observed malloc).Traces Bounded (initialQueue initialSize maxSize) H s) :
    ∃ S l, Linearizes H S ∧ Fifo.Serves maxSize.toNat S l ∧ contents s.shared = l.map some := by
  obtain ⟨l, hrep, hserves⟩ := observed_serves hm h₀ h
  exact ⟨s.log, l, h.linearizes, hserves, hrep.contents⟩

end Runs

/-- A consumer waits until a producer has put an item there; then the producer asks for the size. -/
theorem mqueue_linearizable_handover :
    ∃ (H : List (Event (Fin 2) (Option (Call Nat)) (Ret Nat)))
      (s : State (Fin 2) (Mqueue Nat) (Option (Call Nat)) (Ret Nat)),
      (observed fun _ => true).trace Bounded [] (State.start (initialQueue 1 1))
        [.call 0 (some .dequeue), .lock 0, .test 0, .block 0, .call 1 (some (.enqueue (some 7))),
          .lock 1, .test 1, .body 1, .signal 1 (some 0), .leave 1, .relock 0, .test 0, .body 0,
          .signal 0 none, .leave 0, .call 1 none, .lock 1, .test 1, .body 1, .signal 1 none,
          .leave 1] = some (H, s) ∧
      H = [.call 0 (some .dequeue), .call 1 (some (.enqueue (some 7))), .ret 1 (.count 1),
        .ret 0 (.item (some 7)), .call 1 none, .ret 1 (.count 0)] ∧
      ∃ S l, Linearizes H S ∧ Fifo.Serves 1 S l ∧ contents s.shared = l.map some := by
  let acts : List (Act (Fin 2) (Option (Call Nat))) :=
    [.call 0 (some .dequeue), .lock 0, .test 0, .block 0, .call 1 (some (.enqueue (some 7))),
      .lock 1, .test 1, .body 1, .signal 1 (some 0), .leave 1, .relock 0, .test 0, .body 0,
      .signal 0 none, .leave 0, .call 1 none, .lock 1, .test 1, .body 1, .signal 1 none, .leave 1]
  obtain ⟨⟨H, s⟩, hs, hH⟩ := (Option.any_eq_true _ _).mp (by decide +kernel :
    ((observed fun _ => true).trace Bounded [] (State.start (initialQueue 1 1)) acts).any
      (fun p => decide (p.1 = [.call 0 (some .dequeue), .call 1 (some (.enqueue (some 7))),
        .ret 1 (.count 1), .ret 0 (.item (some 7)), .call 1 none, .ret 1 (.count 0)])) = true)
  exact ⟨H, s, hs, of_decide_eq_true hH,
    mqueue_linearizable (fun _ => rfl) (by decide) (Code.Traces.start.trace hs)⟩

end Mikelibc.Queue
