import Mikelibc.Queue.Fifo
import Mikelibc.Lib.Monitor

/-! # Many threads: the queue of the `MIKELIBC_THREADS` build

In the threaded build enqueue and dequeue are the operations of a monitor over
the queue: the guards become `while` loops around `cnd_wait`, the code past the
guard is the body, and each side signals the other's condition variable. Both
results are about every run of any number of threads: nothing is lost,
duplicated or reordered (`threads_conserve`), and who may still be served is not
left asleep (`quiet_sleepers`). -/
namespace Mikelibc.Queue
open CSem Monitor

variable {α : Type} {malloc : Nat → Bool}

inductive Call (α : Type) where
  | enqueue (item : VoidPtr α)
  | dequeue
  deriving DecidableEq

inductive Cond where
  | full
  | empty
  deriving DecidableEq

/-- `mqueue_enqueue` and `mqueue_dequeue`, built with threads. -/
def threaded (malloc : Nat → Bool) : Monitor.Code (Mqueue α) (Call α) (Ret α) Cond where
  blocked
    | .enqueue _, q => decide (AtMax q)
    | .dequeue, q => decide (IsEmpty q)
  waits
    | .enqueue _ => .full
    | .dequeue => .empty
  signals
    | .enqueue _ => .empty
    | .dequeue => .full
  body
    | .enqueue item, q => do let (q, n) ← enqueueLocked malloc q item; return (q, .count n)
    | .dequeue, q => do let (q, p) ← dequeueLocked q; return (q, .item p)

theorem body_enqueue {q q' : Mqueue α} {x : VoidPtr α} {r : Ret α}
    (h : (threaded malloc).body (.enqueue x) q = .ok (q', r)) :
    ∃ n, enqueueLocked malloc q x = .ok (q', n) ∧ r = .count n := by
  obtain ⟨⟨_, n⟩, hq, h⟩ := Outcome.bind_eq_ok.mp h
  cases h
  exact ⟨n, hq, rfl⟩

theorem body_dequeue {q q' : Mqueue α} {r : Ret α}
    (h : (threaded malloc).body .dequeue q = .ok (q', r)) :
    ∃ p, dequeueLocked q = .ok (q', p) ∧ r = .item p := by
  obtain ⟨⟨_, p⟩, hq, h⟩ := Outcome.bind_eq_ok.mp h
  cases h
  exact ⟨p, hq, rfl⟩

/-! ## Nothing is lost, duplicated or reordered -/

/-- The items enqueued, in the order of the critical sections. -/
def enqueued {τ : Type} (log : List (τ × Call α × Ret α)) : List (VoidPtr α) :=
  log.filterMap fun e => match e.2.1 with
    | .enqueue x => some x
    | .dequeue => none

/-- The items dequeues return, in the order of the critical sections. -/
def dequeued {τ : Type} (log : List (τ × Call α × Ret α)) : List (VoidPtr α) :=
  log.filterMap fun e => match e.2.1, e.2.2 with
    | .dequeue, .item p => some p
    | _, _ => none

/-- `alloc_size * 16` stays below 2^64. -/
def Bounded (q : Mqueue α) : Prop := q.allocSize.toNat * 16 < 2 ^ 64

instance : DecidablePred (Bounded (α := α)) := fun _ => inferInstanceAs (Decidable (_ < _))

/-- What the queue and the log have to do with each other, at maximum `m`. -/
def Conserved {τ : Type} (m : UInt64) (q : Mqueue α) (log : List (τ × Call α × Ret α)) : Prop :=
  ∃ l, Represents q l ∧ q.maxSize = m ∧ dequeued log ++ l = enqueued log ∧
    (0 < m.toNat → l.length ≤ m.toNat)

theorem Conserved.body {τ : Type} (hm : ∀ n, malloc n = true) {m : UInt64} {q q' : Mqueue α}
    {log : List (τ × Call α × Ret α)} {t : τ} {c : Call α} {r : Ret α} (h : Conserved m q log)
    (hb : Bounded q) (hpass : (threaded malloc).blocked c q = false)
    (hbody : (threaded malloc).body c q = .ok (q', r)) : Conserved m q' (log ++ [(t, c, r)]) := by
  obtain ⟨l, hrep, hmax, hlog, hlen⟩ := h
  cases c with
  | enqueue x =>
    obtain ⟨n, hq, rfl⟩ := body_enqueue hbody
    obtain ⟨q₁, n₁, hq₁, hrep', _, hmax'⟩ := enqueueLocked_spec hm hrep (fun _ => hb) x
    rw [hq] at hq₁
    cases hq₁
    refine ⟨l ++ [x], hrep', hmax'.trans hmax, ?_, fun h0 => ?_⟩
    · simp only [dequeued, enqueued, List.filterMap_append, List.filterMap_cons, List.filterMap_nil,
        List.append_nil] at hlog ⊢
      rw [← List.append_assoc, hlog]
    · -- the guard has let it pass, so there was room for one more
      have hnot : ¬ AtMax q := of_decide_eq_false hpass
      rw [hrep.atMax_iff, hmax] at hnot
      have := hlen h0
      rw [List.length_append, List.length_singleton]
      omega
  | dequeue =>
    obtain ⟨p, hq, rfl⟩ := body_dequeue hbody
    have hne : ¬ IsEmpty q := of_decide_eq_false hpass
    cases l with
    | nil => exact absurd (hrep.isEmpty_iff.mpr rfl) hne
    | cons x l =>
      obtain ⟨q₁, hq₁, hrep', hmax'⟩ := dequeueLocked_spec hrep
      rw [hq] at hq₁
      cases hq₁
      refine ⟨l, hrep', hmax'.trans hmax, ?_, fun h0 => ?_⟩
      · simp only [dequeued, enqueued, List.filterMap_append, List.filterMap_cons, List.filterMap_nil,
          List.append_nil] at hlog ⊢
        rw [List.append_assoc, List.singleton_append, hlog]
      · have := hlen h0
        simp only [List.length_cons] at this
        omega

section Runs
variable {τ : Type} [Fintype τ] [DecidableEq τ]

/-- **No item is lost, duplicated or reordered.** In every state that any number
of threads reach, the items returned so far followed by the contents are the items
enqueued so far; the size is their difference and within the maximum; what a call is about
to return is what its critical section did; a dequeue past its guard has an item
to read, and no critical section goes wrong. -/
theorem threads_conserve (hm : ∀ n, malloc n = true) {initialSize maxSize : UInt64}
    {s : State τ (Mqueue α) (Call α) (Ret α)}
    (h₀ : Bounded (initialQueue initialSize maxSize : Mqueue α))
    (hrun : (threaded malloc).Run Bounded (State.start (initialQueue initialSize maxSize)) s) :
    (dequeued s.log).map some ++ contents s.shared = (enqueued s.log).map some ∧
    (mqueueSizeInt s.shared).toNat + (dequeued s.log).length = (enqueued s.log).length ∧
    s.shared.maxSize = maxSize ∧
    (0 < maxSize.toNat → (mqueueSizeInt s.shared).toNat ≤ maxSize.toNat) ∧
    (∀ t c r, s.pc t = .signalling c r ∨ s.pc t = .leaving c r → s.log.getLast? = some (t, c, r)) ∧
    (∀ t, s.pc t = .inside .dequeue → mqueueSizeInt s.shared ≠ 0) ∧
    ∀ t c, s.pc t = .inside c → ∃ q r, (threaded malloc).body c s.shared = .ok (q, r) := by
  obtain ⟨hinv, l, hrep, hmax, hlog, hlen⟩ := hrun.log_invariant (Conserved maxSize) h₀
    ⟨[], initialQueue_represents h₀, rfl, rfl, fun _ => Nat.zero_le _⟩
    (fun _ _ _ _ _ _ hJ hb hpass hbody => hJ.body hm hb hpass hbody)
  have hbound : Bounded s.shared := hrun.bounded h₀
  have hdeq : ∀ t, s.pc t = .inside .dequeue → ¬ IsEmpty s.shared := fun t ht =>
    of_decide_eq_false (hinv.passed t _ ht)
  refine ⟨?_, ?_, hmax, ?_, hinv.logged, hdeq, fun t c ht => ?_⟩
  · rw [hrep.contents, ← List.map_append, hlog]
  · rw [hrep.size, ← hlog, List.length_append, Nat.add_comm]
  · rw [hrep.size]; exact hlen
  · cases c with
    | enqueue x =>
      obtain ⟨q, n, hq, _⟩ := enqueueLocked_spec hm hrep (fun _ => hbound) x
      exact ⟨q, .count n, by simp [threaded, hq]⟩
    | dequeue =>
      cases l with
      | nil => exact absurd (hrep.isEmpty_iff.mpr rfl) (hdeq t ht)
      | cons x l =>
        obtain ⟨q, hq, _⟩ := dequeueLocked_spec hrep
        exact ⟨q, .item x, by simp [threaded, hq]⟩

end Runs

/-- A consumer waits, a producer serves it: the item comes out. -/
theorem threads_conserve_handover :
    ∃ s : State (Fin 2) (Mqueue Nat) (Call Nat) (Ret Nat),
      (threaded fun _ => true).runActs Bounded (State.start (initialQueue 1 1))
        [.call 0 .dequeue, .lock 0, .test 0, .block 0, .call 1 (.enqueue (some 7)), .lock 1, .test 1,
          .body 1, .signal 1 (some 0), .leave 1, .relock 0, .test 0, .body 0] = some s ∧
      (dequeued s.log).map some ++ contents s.shared = (enqueued s.log).map some := by
  obtain ⟨s, hs⟩ := Option.isSome_iff_exists.mp (by decide +kernel :
    ((threaded fun _ => true).runActs Bounded (State.start (initialQueue 1 1) :
        State (Fin 2) (Mqueue Nat) (Call Nat) (Ret Nat))
      [.call 0 .dequeue, .lock 0, .test 0, .block 0, .call 1 (.enqueue (some 7)), .lock 1, .test 1,
        .body 1, .signal 1 (some 0), .leave 1, .relock 0, .test 0, .body 0]).isSome = true)
  exact ⟨s, hs, (threads_conserve (fun _ => rfl) (by decide) (Code.runActs_run _ hs)).1⟩

/-! ## No wakeup is lost -/

/-- The window lies in the block: enough for the sizes, whatever the sizes
requested from `malloc` did. -/
structure Sized (q : Mqueue α) : Prop where
  front : q.front.toNat ≤ (q.rear + 1).toNat
  rear : 8 * (q.rear + 1).toNat ≤ q.data.bytes
  bytes : q.data.bytes < 2 ^ 64

theorem Sized.size {q : Mqueue α} (h : Sized q) :
    (mqueueSizeInt q).toNat = (q.rear + 1).toNat - q.front.toNat :=
  toNat_sub_of_eq (by have := h.front; omega)

theorem initialQueue_sized (initialSize maxSize : UInt64) :
    Sized (initialQueue initialSize maxSize : Mqueue α) :=
  ⟨by simp [initialQueue], by simp [initialQueue], UInt64.toNat_lt _⟩

theorem enqueueLocked_sized {q q' : Mqueue α} {x : VoidPtr α} {n : UInt64} (h : Sized q)
    (hq : enqueueLocked malloc q x = .ok (q', n)) :
    Sized q' ∧ (mqueueSizeInt q').toNat = (mqueueSizeInt q).toNat + 1 ∧ q'.maxSize = q.maxSize := by
  obtain ⟨g, hg, hq⟩ := Outcome.bind_eq_ok.mp hq
  obtain ⟨d, hd, hq⟩ := Outcome.bind_eq_ok.mp hq
  obtain ⟨hfit, rfl⟩ := Block.store_eq_ok.mp hd
  cases hq
  have hgrow : g.rear = q.rear + 1 ∧ g.front = q.front ∧ g.maxSize = q.maxSize ∧
    g.data.bytes < 2 ^ 64 := by
    unfold grow at hg
    split at hg
    · obtain ⟨_, _, hg⟩ := Outcome.bind_eq_ok.mp hg
      cases hg
      exact ⟨rfl, rfl, rfl, UInt64.toNat_lt _⟩
    · cases hg
      exact ⟨rfl, rfl, rfl, h.bytes⟩
  obtain ⟨hrear, hfront, hmax, hbytes⟩ := hgrow
  unfold Block.Fits at hfit
  rw [hrear] at hfit
  have hnext : (g.rear + 1).toNat = (q.rear + 1).toNat + 1 := by
    rw [hrear]
    exact toNat_add_one (by omega)
  have hf := h.front
  have hs : Sized { g with
      data := { g.data with cell := Function.update g.data.cell g.rear.toNat (some x) } } := by
    refine ⟨?_, ?_, hbytes⟩
    · simp only [hnext, hfront]; omega
    · simp only [hnext]; omega
  refine ⟨hs, ?_, hmax⟩
  rw [hs.size, h.size]
  simp only [hnext, hfront]
  omega

theorem mqueueVacuum_sized {q q' : Mqueue α} (h : Sized q) (hq : mqueueVacuum q = .ok q') :
    Sized q' ∧ (mqueueSizeInt q').toNat = (mqueueSizeInt q).toNat ∧ q'.maxSize = q.maxSize := by
  unfold mqueueVacuum at hq
  split at hq
  · cases hq; exact ⟨h, rfl, rfl⟩
  · obtain ⟨d, hd, hq⟩ := Outcome.bind_eq_ok.mp hq
    obtain ⟨_, _, hd⟩ := Outcome.bind_eq_ok.mp hd
    obtain ⟨_, _, hd⟩ := Outcome.bind_eq_ok.mp hd
    cases hd
    cases hq
    have hf := h.front
    have hr := h.rear
    have hnext : (q.rear + 1 - q.front).toNat = (q.rear + 1).toNat - q.front.toNat :=
      toNat_sub_of_eq (by omega)
    refine ⟨⟨by simp, by simp only [sub_add_one, hnext]; omega, h.bytes⟩, ?_, rfl⟩
    simp [mqueueSizeInt, sub_add_one]

theorem dequeueLocked_sized {q q' : Mqueue α} {p : VoidPtr α} (h : Sized q) (hne : ¬ IsEmpty q)
    (hq : dequeueLocked q = .ok (q', p)) :
    Sized q' ∧ (mqueueSizeInt q').toNat + 1 = (mqueueSizeInt q).toNat ∧ q'.maxSize = q.maxSize := by
  have hpos : 0 < (mqueueSizeInt q).toNat := by
    rcases Nat.eq_zero_or_pos (mqueueSizeInt q).toNat with h0 | h0
    · exact absurd (UInt64.toNat_inj.mp h0) hne
    · exact h0
  rw [h.size] at hpos
  have hr := h.rear
  have hb := h.bytes
  have hfront : (q.front + 1).toNat = q.front.toNat + 1 := toNat_add_one (by omega)
  have htaken : Sized { q with front := q.front + 1, gcRun := q.gcRun - 1 } :=
    ⟨by simp only [hfront]; omega, hr, hb⟩
  have hsize : (mqueueSizeInt { q with front := q.front + 1, gcRun := q.gcRun - 1 }).toNat + 1 =
      (mqueueSizeInt q).toNat := by
    rw [htaken.size, h.size, hfront]
    simp only
    omega
  obtain ⟨x, hx, hq⟩ := Outcome.bind_eq_ok.mp hq
  obtain ⟨k, hk, hq⟩ := Outcome.bind_eq_ok.mp hq
  cases hq
  unfold housekeeping at hk
  split at hk
  · obtain ⟨v, hv, hk⟩ := Outcome.bind_eq_ok.mp hk
    cases hk
    obtain ⟨hs, hsz, hmax⟩ := mqueueVacuum_sized htaken hv
    exact ⟨⟨hs.front, hs.rear, hs.bytes⟩, by rw [← hsize, ← hsz]; rfl, hmax⟩
  · cases hk
    exact ⟨htaken, hsize, rfl⟩

/-- What the condition variables of the queue announce: free places and items. -/
def places (malloc : Nat → Bool) (m : UInt64) :
    Resource (threaded (α := α) malloc) fun q => Sized q ∧ q.maxSize = m where
  avail
    | .full, q => q.maxSize.toNat - (mqueueSizeInt q).toNat
    | .empty, q => (mqueueSizeInt q).toNat
  keep := by
    rintro q c q' r ⟨h, hmax⟩ hpass hbody
    cases c with
    | enqueue x =>
      obtain ⟨n, hq, _⟩ := body_enqueue hbody
      obtain ⟨hs, _, hm⟩ := enqueueLocked_sized h hq
      exact ⟨hs, hm.trans hmax⟩
    | dequeue =>
      obtain ⟨p, hq, _⟩ := body_dequeue hbody
      obtain ⟨hs, _, hm⟩ := dequeueLocked_sized h (of_decide_eq_false hpass) hq
      exact ⟨hs, hm.trans hmax⟩
  empty := by
    rintro q c ⟨h, hmax⟩ hblocked
    cases c with
    | enqueue x =>
      have hfull : AtMax q := of_decide_eq_true hblocked
      simp only [threaded]
      rw [hfull.2, Nat.sub_self]
    | dequeue =>
      have hnone : IsEmpty q := of_decide_eq_true hblocked
      simp only [threaded]
      rw [hnone]
      rfl
  take := by
    rintro q c q' r ⟨h, hmax⟩ hpass hbody k
    cases c with
    | enqueue x =>
      obtain ⟨n, hq, _⟩ := body_enqueue hbody
      obtain ⟨_, hsz, hm⟩ := enqueueLocked_sized h hq
      cases k <;> simp only [threaded, hsz, hm, reduceCtorEq, if_true, if_false] <;> omega
    | dequeue =>
      obtain ⟨p, hq, _⟩ := body_dequeue hbody
      obtain ⟨_, hsz, hm⟩ := dequeueLocked_sized h (of_decide_eq_false hpass) hq
      cases k <;> simp only [threaded, ← hsz, hm, reduceCtorEq, if_true, if_false] <;> omega

section Runs
variable {τ : Type} [Fintype τ] [DecidableEq τ]

/-- **Who may be served is not left asleep.** In every state that any number of
threads reach, and in which no thread holds the mutex or is awake on its way to it,
a consumer waits only for an empty queue and a producer only for one at its maximum,
so the two never wait at the same time. -/
theorem quiet_sleepers {initialSize maxSize : UInt64} {s : State τ (Mqueue α) (Call α) (Ret α)}
    (hrun : (threaded malloc).Run (fun _ => True) (State.start (initialQueue initialSize maxSize)) s)
    (hquiet : Quiet s) :
    (∀ t, s.pc t = .waiting .dequeue → mqueueSizeInt s.shared = 0) ∧
    (∀ t x, s.pc t = .waiting (.enqueue x) → ¬ mqueueSizeInt s.shared < s.shared.maxSize) ∧
    ¬ ((∃ t, s.pc t = .waiting .dequeue) ∧ ∃ t x, s.pc t = .waiting (.enqueue x)) := by
  have hI : Sized (initialQueue initialSize maxSize : Mqueue α) ∧
      (initialQueue initialSize maxSize : Mqueue α).maxSize = maxSize :=
    ⟨initialQueue_sized initialSize maxSize, rfl⟩
  have hnone := fun t c => no_lost_wakeup (places malloc maxSize) hrun trivial hI hquiet (t := t)
    (c := c)
  have hempty : ∀ t, s.pc t = .waiting .dequeue → mqueueSizeInt s.shared = 0 := fun t ht =>
    UInt64.toNat_inj.mp (hnone t _ ht)
  have hfull : ∀ t x, s.pc t = .waiting (.enqueue x) →
      s.shared.maxSize.toNat - (mqueueSizeInt s.shared).toNat = 0 := fun t x ht => hnone t _ ht
  refine ⟨hempty, fun t x ht hlt => ?_, ?_⟩
  · have := hfull t x ht
    rw [UInt64.lt_iff_toNat_lt] at hlt
    omega
  · intro hboth
    obtain ⟨⟨t, ht⟩, u, x, hu⟩ := hboth
    -- a producer waits only for a queue with a maximum, which an empty queue is not at
    obtain ⟨q, ⟨_, hmaxq⟩, hblocked⟩ := hrun.sleeper_blocked
      (fun q => Sized q ∧ q.maxSize = maxSize) trivial hI
        (fun _ _ _ _ => (places malloc maxSize).keep) hu
    have hpos : q.maxSize > 0 := (of_decide_eq_true hblocked : AtMax q).1
    have hmax : s.shared.maxSize = maxSize :=
      (hrun.log_invariant (fun q _ => Sized q ∧ q.maxSize = maxSize) trivial hI
        fun _ _ _ _ _ _ hJ _ => (places malloc maxSize).keep hJ).2.2
    have h0 := hfull u x hu
    rw [hempty t ht, hmax, ← hmaxq] at h0
    rw [gt_iff_lt, UInt64.lt_iff_toNat_lt] at hpos
    simp only [UInt64.toNat_zero] at h0 hpos
    omega

end Runs

/-- A consumer waits for the empty queue while nobody is on the way. -/
theorem quiet_sleepers_consumer :
    ∃ s : State (Fin 2) (Mqueue Nat) (Call Nat) (Ret Nat),
      (threaded fun _ => true).runActs (fun _ => True) (State.start (initialQueue 1 1))
        [.call 0 .dequeue, .lock 0, .test 0, .block 0] = some s ∧
      s.pc 0 = .waiting .dequeue ∧ mqueueSizeInt s.shared = 0 := by
  let acts : List (Act (Fin 2) (Call Nat)) := [.call 0 .dequeue, .lock 0, .test 0, .block 0]
  obtain ⟨s, hs, hpcs⟩ := (Option.any_eq_true _ _).mp (by decide +kernel :
    ((threaded fun _ => true).runActs (fun _ => True) (State.start (initialQueue 1 1)) acts).any
      (fun s => decide (s.pc 0 = .waiting .dequeue ∧ s.pc 1 = .idle)) = true)
  obtain ⟨h0, h1⟩ := of_decide_eq_true hpcs
  have hquiet : Quiet s := Fin.forall_fin_two.mpr
    ⟨by simp [h0, Pc.holds], by simp [h1, Pc.holds]⟩
  exact ⟨s, hs, h0, (quiet_sleepers (Code.runActs_run _ hs) hquiet).1 0 h0⟩

/-- While a woken producer is still on its way to the mutex, another producer and
a consumer may both be asleep, neither of them with a wakeup pending. -/
theorem sleepers_coexist :
    ¬ ∀ s : State (Fin 3) (Mqueue Nat) (Call Nat) (Ret Nat),
      (threaded fun _ => true).Run (fun _ => True) (State.start (initialQueue 1 1)) s →
      ¬ ((∃ t, s.pc t = .waiting .dequeue) ∧ ∃ t x, s.pc t = .waiting (.enqueue x)) := by
  intro hall
  let acts : List (Act (Fin 3) (Call Nat)) :=
    [.call 0 (.enqueue (some 1)), .lock 0, .test 0, .body 0, .signal 0 none, .leave 0,
      .call 0 (.enqueue (some 3)), .lock 0, .test 0, .block 0,
      .call 1 (.enqueue (some 2)), .lock 1, .test 1, .block 1,
      .call 2 .dequeue, .lock 2, .test 2, .body 2, .signal 2 (some 0), .leave 2,
      .call 2 .dequeue, .lock 2, .test 2, .block 2]
  obtain ⟨s, hs, hpcs⟩ := (Option.any_eq_true _ _).mp (by decide +kernel :
    ((threaded fun _ => true).runActs (fun _ => True) (State.start (initialQueue 1 1)) acts).any
      (fun s => decide (s.pc 2 = .waiting .dequeue ∧ s.pc 1 = .waiting (.enqueue (some 2)))) = true)
  obtain ⟨hcons, hprod⟩ := of_decide_eq_true hpcs
  exact hall s (Code.runActs_run _ hs) ⟨⟨2, hcons⟩, 1, _, hprod⟩

end Mikelibc.Queue
