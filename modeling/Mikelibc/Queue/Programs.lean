import Mikelibc.Lib.Programs
import Mikelibc.Queue.Slack
import Mikelibc.Queue.Threads

/-! # Producers and consumers

Threads that only enqueue or only dequeue, each a list of items or a number of times, as the tests
do with one of either kind. Whether all of them get to their end does not depend on who runs when:
it is a matter of how many enqueues and dequeues there are (`programs_complete_iff`). -/
namespace Mikelibc.Queue
open CSem Monitor

variable {α : Type} {malloc : Nat → Bool}

def Call.isEnqueue : Call α → Bool
  | .enqueue _ => true
  | .dequeue => false

/-! ## The array, without a bound on its size -/

/-- What the queue and the log have to do with each other: the items, and the size of the array,
which is doubled only when there have been as many enqueues as it has slots. -/
structure Kept {τ : Type} (m : UInt64) (initial : Nat) (q : Mqueue α)
    (log : List (τ × Call α × Ret α)) : Prop where
  conserved : Conserved m q log
  window : (q.rear + 1).toNat ≤ (enqueued log).length
  alloc : q.allocSize.toNat ≤ max initial (2 * (enqueued log).length)
  enqueues : (enqueued log).length = log.countP fun e => e.2.1.isEnqueue
  dequeues : (dequeued log).length = log.countP fun e => !e.2.1.isEnqueue

variable {τ : Type} {m : UInt64} {initial : Nat} {q q' : Mqueue α}
  {log : List (τ × Call α × Ret α)}

theorem enqueued_append (log log' : List (τ × Call α × Ret α)) :
    enqueued (log ++ log') = enqueued log ++ enqueued log' :=
  List.filterMap_append

theorem dequeued_append (log log' : List (τ × Call α × Ret α)) :
    dequeued (log ++ log') = dequeued log ++ dequeued log' :=
  List.filterMap_append

theorem Represents.sized {l : List (VoidPtr α)} (h : Represents q l) : Sized q := by
  have hroom := h.room
  have hrear := h.rear
  refine ⟨by omega, ?_, ?_⟩ <;> rw [h.block]
  · omega
  · exact h.fits

/-- With few enqueues the sizes do not wrap around. -/
theorem Kept.bounded (h : Kept m initial q log) (hinit : initial * 16 < 2 ^ 64)
    (hfew : 32 * (enqueued log).length < 2 ^ 64) : Bounded q := by
  have := h.alloc
  unfold Bounded
  omega

theorem Kept.body (hm : ∀ n, malloc n = true) (hinit : initial * 16 < 2 ^ 64) {t : τ} {c : Call α}
    {r : Ret α} (h : Kept m initial q log) (hfew : 32 * (enqueued log).length < 2 ^ 64)
    (hpass : (threaded malloc).blocked c q = false)
    (hbody : (threaded malloc).body c q = .ok (q', r)) : Kept m initial q' (log ++ [(t, c, r)]) := by
  have hb := h.bounded hinit hfew
  have hconserved := h.conserved.body (t := t) hm hb hpass hbody
  obtain ⟨l, hrep, _⟩ := h.conserved
  have hafter := hconserved
  obtain ⟨l', hrep', _⟩ := hafter
  have hwindow := h.window
  have halloc := h.alloc
  have hrear := hrep.rear
  have hrear' := hrep'.rear
  cases c with
  | enqueue x =>
    obtain ⟨n, hq, rfl⟩ := body_enqueue hbody
    obtain ⟨hfront, _, hgrown⟩ := enqueueLocked_counters hq
    obtain ⟨_, hsize, _⟩ := enqueueLocked_sized hrep.sized hq
    rw [hrep.size, hrep'.size] at hsize
    have hlen : (enqueued (log ++ [(t, Call.enqueue x, Ret.count n)])).length =
        (enqueued log).length + 1 := by
      rw [enqueued_append, List.length_append]
      rfl
    refine ⟨hconserved, ?_, ?_, ?_, ?_⟩
    · rw [hlen, hrear', hfront]
      omega
    · rw [hlen]
      rcases hgrown with hsame | ⟨hfull, hdouble⟩
      · rw [hsame]
        omega
      · rw [hfull] at hwindow
        have hb : q.allocSize.toNat * 16 < 2 ^ 64 := hb
        rw [hdouble, toNat_double (by omega)]
        omega
    · rw [hlen, h.enqueues, List.countP_append]
      rfl
    · rw [dequeued_append, List.length_append, h.dequeues, List.countP_append]
      rfl
  | dequeue =>
    obtain ⟨p, hq, rfl⟩ := body_dequeue hbody
    obtain ⟨hsame, hmoved⟩ := dequeueLocked_counters hq
    have hne : ¬ IsEmpty q := of_decide_eq_false hpass
    obtain ⟨_, hsize, _⟩ := dequeueLocked_sized hrep.sized hne hq
    rw [hrep.size, hrep'.size] at hsize
    have hlen : enqueued (log ++ [(t, Call.dequeue, Ret.item p)]) = enqueued log := by
      rw [enqueued_append]
      exact List.append_nil _
    refine ⟨hconserved, ?_, ?_, ?_, ?_⟩
    · rw [hlen, hrear']
      have hup := UInt64.toNat_add q.front 1
      have hone : (1 : UInt64).toNat = 1 := rfl
      have hzero : (0 : UInt64).toNat = 0 := rfl
      rcases hmoved with ⟨hfront, _⟩ | ⟨_, hfront, _⟩ <;> rw [hfront] <;> omega
    · rw [hlen, hsame]
      exact halloc
    · rw [hlen, h.enqueues, List.countP_append]
      rfl
    · rw [dequeued_append, List.length_append, h.dequeues, List.countP_append]
      rfl

theorem body_total (hm : ∀ n, malloc n = true) {l : List (VoidPtr α)} (h : Represents q l)
    (hb : Bounded q) {c : Call α} (hpass : (threaded malloc).blocked c q = false) :
    ∃ r, (threaded malloc).body c q = .ok r := by
  cases c with
  | enqueue x =>
    obtain ⟨q', n, hq, _⟩ := enqueueLocked_spec hm h (fun _ => hb) x
    exact ⟨(q', .count n), by simp [threaded, hq]⟩
  | dequeue =>
    have hne : ¬ IsEmpty q := of_decide_eq_false hpass
    cases l with
    | nil => exact absurd (h.isEmpty_iff.mpr rfl) hne
    | cons x l =>
      obtain ⟨q', hq, _⟩ := dequeueLocked_spec h
      exact ⟨(q', .item x), by simp [threaded, hq]⟩

/-! ## Programs -/

section Programs
variable [Fintype τ] [DecidableEq τ]

def enqueues (prog : τ → List (Call α)) : Nat := ∑ t, (prog t).countP Call.isEnqueue

def dequeues (prog : τ → List (Call α)) : Nat := ∑ t, (prog t).countP fun c => !c.isEnqueue

/-- Every thread is a producer or a consumer. -/
def Roles (prog : τ → List (Call α)) : Prop :=
  ∀ t, (∀ c ∈ prog t, c.isEnqueue = true) ∨ ∀ c ∈ prog t, c.isEnqueue = false

instance (prog : τ → List (Call α)) : Decidable (Roles prog) :=
  inferInstanceAs (Decidable (∀ _, _ ∨ _))

/-- There are items for all the consumers, and room for what they leave. -/
structure Balanced (maxSize : UInt64) (prog : τ → List (Call α)) : Prop where
  items : dequeues prog ≤ enqueues prog
  room : 0 < maxSize.toNat → enqueues prog ≤ dequeues prog + maxSize.toNat

variable [DecidableEq α] {initialSize maxSize : UInt64} {prog : τ → List (Call α)}
  {as : List (Act τ (Call α))} {j : Job τ (Mqueue α) (Call α) (Ret α)}

def newJob (initialSize maxSize : UInt64) (prog : τ → List (Call α)) :
    Job τ (Mqueue α) (Call α) (Ret α) :=
  Job.start (initialQueue initialSize maxSize) prog

theorem run_kept (hm : ∀ n, malloc n = true)
    (hinit : Bounded (initialQueue initialSize maxSize : Mqueue α))
    (hfew : 32 * enqueues prog < 2 ^ 64)
    (h : (threaded malloc).runJob (newJob initialSize maxSize prog) as = some j) :
    Inv (threaded malloc) j.state ∧
    Kept maxSize (initialQueue initialSize maxSize : Mqueue α).allocSize.toNat j.state.shared
      j.state.log := by
  obtain ⟨hinv, hkept⟩ := (runJob_run h).log_invariant
    (fun q log => 32 * (enqueued log).length < 2 ^ 64 →
      Kept maxSize (initialQueue initialSize maxSize : Mqueue α).allocSize.toNat q log) trivial
    (fun _ => ⟨⟨[], initialQueue_represents hinit, rfl, rfl, fun _ => Nat.zero_le _⟩,
      by simp [initialQueue], Nat.le_max_left _ _, rfl, rfl⟩)
    (fun q log t c q' r hkept _ hpass hbody hlog => by
      have hless : (enqueued log).length ≤ (enqueued (log ++ [(t, c, r)])).length := by
        rw [enqueued_append, List.length_append]
        exact Nat.le_add_right _ _
      have hfew : 32 * (enqueued log).length < 2 ^ 64 := by omega
      exact (hkept hfew).body hm hinit hfew hpass hbody)
  refine ⟨hinv, hkept ?_⟩
  have hcount := runJob_countP Call.isEnqueue h
  have hlog : (enqueued j.state.log).length = j.state.log.countP fun e => e.2.1.isEnqueue := by
    generalize j.state.log = log
    induction log with
    | nil => rfl
    | cons e log ih =>
      obtain ⟨t, c, r⟩ := e
      cases c <;> simpa [enqueued, Call.isEnqueue] using ih
  unfold enqueues at hfew
  omega

/-- Where no thread can go on although there are items and room enough, all have come to their
end. -/
theorem Balanced.finished (hm : ∀ n, malloc n = true)
    (hinit : Bounded (initialQueue initialSize maxSize : Mqueue α))
    (hfew : 32 * enqueues prog < 2 ^ 64) (hroles : Roles prog) (hbal : Balanced maxSize prog)
    (h : (threaded malloc).runJob (newJob initialSize maxSize prog) as = some j)
    (hstuck : (threaded malloc).Stuck j) : j.Finished := by
  obtain ⟨hinv, hkept⟩ := run_kept hm hinit hfew h
  have henq := runJob_countP Call.isEnqueue h
  have hdeq := runJob_countP (fun c => !c.isEnqueue) h
  obtain ⟨l, hrep, hmax, hlog, _⟩ := hkept.conserved
  have hlens := congrArg List.length hlog
  rw [List.length_append, hkept.enqueues, hkept.dequeues] at hlens
  have hsize := hrep.size
  have hbounded : Bounded j.state.shared := hkept.bounded hinit (by
    rw [hkept.enqueues]
    unfold enqueues at hfew
    omega)
  obtain ⟨hquiet, hrest⟩ := hstuck.resting hinv fun t c hpc =>
    body_total hm hrep hbounded (hinv.passed t c hpc)
  obtain ⟨hempty, hfull, hboth⟩ := quiet_sleepers (runJob_run h) hquiet
  have hitems := hbal.items
  have hroom := hbal.room
  unfold enqueues dequeues at hitems hroom
  have hawake : ∀ t c, j.state.pc t ≠ .waiting c := by
    intro t c hc
    cases c with
    | dequeue =>
      -- every producer has come to its end, and the queue is empty
      have hnone := left_none Call.isEnqueue h hroles hrest fun u d hu => by
        cases d with
        | dequeue => rfl
        | enqueue x => exact absurd ⟨⟨t, hc⟩, u, x, hu⟩ hboth
      have hleft := left_pos (fun c => !c.isEnqueue) hc rfl
      rw [hempty t hc] at hsize
      simp only [UInt64.toNat_zero] at hsize
      omega
    | enqueue x =>
      -- every consumer has, and the queue is at its maximum
      have hnone := left_none (fun c => !c.isEnqueue) h
        (fun u => (hroles u).symm.imp (fun hr c hc => by rw [hr c hc]; rfl)
          (fun hr c hc => by rw [hr c hc]; rfl)) hrest fun u d hu => by
        cases d with
        | enqueue y => rfl
        | dequeue => exact absurd ⟨⟨u, hu⟩, t, x, hc⟩ hboth
      have hleft := left_pos Call.isEnqueue hc rfl
      have hnot := hfull t x hc
      obtain ⟨q, hqmax, hblocked⟩ := (runJob_run h).sleeper_blocked
        (fun q => Sized q ∧ q.maxSize = maxSize) trivial
        ⟨initialQueue_sized initialSize maxSize, rfl⟩
        (fun _ _ _ _ => (places malloc maxSize).keep) hc
      have hpos : q.maxSize > 0 := (of_decide_eq_true hblocked : AtMax q).1
      rw [hqmax.2, gt_iff_lt, UInt64.lt_iff_toNat_lt] at hpos
      rw [UInt64.lt_iff_toNat_lt, hmax, hsize] at hnot
      have hlimit := hroom hpos
      omega
  intro t
  rcases hrest t with ⟨hidle, htodo⟩ | ⟨c, hc⟩
  · exact ⟨htodo, hidle⟩
  · exact absurd hc (hawake t c)

/-- When all threads have come to their end, the queue holds what is left over. -/
theorem finished_size (hm : ∀ n, malloc n = true)
    (hinit : Bounded (initialQueue initialSize maxSize : Mqueue α))
    (hfew : 32 * enqueues prog < 2 ^ 64)
    (h : (threaded malloc).runJob (newJob initialSize maxSize prog) as = some j)
    (hfin : j.Finished) : (mqueueSizeInt j.state.shared).toNat + dequeues prog = enqueues prog ∧
      (0 < maxSize.toNat → (mqueueSizeInt j.state.shared).toNat ≤ maxSize.toNat) := by
  obtain ⟨_, hkept⟩ := run_kept hm hinit hfew h
  have henq := runJob_countP Call.isEnqueue h
  have hdeq := runJob_countP (fun c => !c.isEnqueue) h
  have hnone : ∀ t, j.left t = [] := fun t => by
    simp [Job.left, (hfin t).1, (hfin t).2, Pc.toRun]
  simp only [hnone, List.countP_nil, Finset.sum_const_zero, Nat.add_zero] at henq hdeq
  obtain ⟨l, hrep, _, hlog, hle⟩ := hkept.conserved
  have hlens := congrArg List.length hlog
  rw [List.length_append, hkept.enqueues, hkept.dequeues, henq, hdeq] at hlens
  rw [hrep.size]
  exact ⟨by unfold enqueues dequeues; omega, hle⟩

/-- **When producers and consumers get to their end.** Every run of them is short: nine steps for a
call, and four more for each time a waiter wakes by itself. So it goes on until no thread can go on;
and then, whoever ran when, all of them have made all their calls exactly if there are items for
all the dequeues and room for the items left over. -/
theorem programs_complete_iff (hm : ∀ n, malloc n = true)
    (hinit : Bounded (initialQueue initialSize maxSize : Mqueue α))
    (hfew : 32 * enqueues prog < 2 ^ 64) (hroles : Roles prog) :
    (∀ as j, (threaded malloc).runJob (newJob initialSize maxSize prog) as = some j →
      as.length ≤ 9 * calls prog + 4 * wakes as) ∧
    ((∀ as j, (threaded malloc).runJob (newJob initialSize maxSize prog) as = some j →
      (threaded malloc).Stuck j →
      j.Finished ∧ (mqueueSizeInt j.state.shared).toNat + dequeues prog = enqueues prog) ↔
        Balanced maxSize prog) := by
  refine ⟨fun as j h => runJob_length h, fun hall => ?_, fun hbal as j h hstuck => ?_⟩
  · obtain ⟨as, j, hrun, _, hstuck⟩ :=
      exists_stuck (threaded malloc) (newJob initialSize maxSize prog)
    obtain ⟨hsize, hle⟩ := finished_size hm hinit hfew hrun (hall as j hrun hstuck).1
    exact ⟨by omega, fun hpos => by have := hle hpos; omega⟩
  · have hfin := hbal.finished hm hinit hfew hroles h hstuck
    exact ⟨hfin, (finished_size hm hinit hfew h hfin).1⟩

end Programs

/-- One producer and one consumer of ten items, and a queue for ten, as the test has them. -/
def testProgram : Fin 2 → List (Call Nat)
  | 0 => (List.range 10).map fun i => .enqueue (some i)
  | 1 => List.replicate 10 .dequeue

/-- Both get to their end, in at most nine steps a call, and leave nothing on the queue. -/
theorem programs_complete_test :
    (∀ as j, (threaded fun _ => true).runJob (newJob 5 10 testProgram) as = some j →
      as.length ≤ 9 * 20 + 4 * wakes as) ∧
    ∀ as j, (threaded fun _ => true).runJob (newJob 5 10 testProgram) as = some j →
      (threaded fun _ => true).Stuck j →
      j.Finished ∧ (mqueueSizeInt j.state.shared).toNat + 10 = 10 := by
  obtain ⟨hlength, hcomplete⟩ := @programs_complete_iff Nat (fun _ => true) (Fin 2) _ _ _ 5 10
    testProgram (fun _ => rfl) (by decide) (by decide +kernel) (by decide)
  rw [show calls testProgram = 20 by decide +kernel] at hlength
  exact ⟨hlength, hcomplete.mpr ⟨by decide +kernel, by decide +kernel⟩⟩

end Mikelibc.Queue
