import Mikelibc.Queue.Fifo

/-! # One thread: the queue refines the bounded list

Calls in any order on one queue, built without threads. A call on a queue that
represents a list answers as the abstract queue does and represents the abstract
result (`step_spec`); the run theorem follows by simulation. -/
namespace Mikelibc.Queue
open CSem

variable {α : Type} {malloc : Nat → Bool}

/-- A call at the bound, or a dequeue of an empty queue, changes nothing at all. -/
theorem mqueueEnqueue_full {q : Mqueue α} (h : AtMax q) (x : VoidPtr α) :
    mqueueEnqueue malloc q x = .ok (q, -1) := by
  simp [mqueueEnqueue, h]

theorem mqueueDequeue_empty {q : Mqueue α} (h : IsEmpty q) : mqueueDequeue q = .ok (q, none) := by
  simp [mqueueDequeue, h]

theorem step_spec (hm : ∀ n, malloc n = true) {q : Mqueue α} {l : List (VoidPtr α)}
    (h : Represents q l) (hb : q.allocSize.toNat * 16 < 2 ^ 64) (o : Op α) :
    ∃ q' r, step malloc q o = .ok (q', r) ∧
      Represents q' (Fifo.step q.maxSize.toNat l o).1 ∧ q'.maxSize = q.maxSize ∧
      Answers (Fifo.step q.maxSize.toNat l o).2 r := by
  cases o with
  | enqueue x =>
    by_cases hfull : AtMax q
    · refine ⟨q, .count (-1), by simp [step, mqueueEnqueue_full hfull], ?_, rfl, ?_⟩ <;>
        rw [Fifo.step, if_pos (h.atMax_iff.mp hfull)]
      · exact h
      · exact .refused
    · obtain ⟨q', n, hq, hrep, hn, hmax⟩ := enqueueLocked_spec hm h (fun _ => hb) x
      refine ⟨q', .count n, by simp [step, mqueueEnqueue, hfull, hq], ?_, hmax, ?_⟩ <;>
        rw [Fifo.step, if_neg fun hc => hfull (h.atMax_iff.mpr hc)]
      · exact hrep
      · exact .length hn
  | dequeue =>
    cases l with
    | nil =>
      exact ⟨q, .item none, by simp [step, mqueueDequeue_empty (h.isEmpty_iff.mpr rfl)], h, rfl,
        .item none⟩
    | cons x l =>
      have hne : ¬ IsEmpty q := fun he => by simpa using h.isEmpty_iff.mp he
      obtain ⟨q', hq, hrep, hmax⟩ := dequeueLocked_spec h
      exact ⟨q', .item x, by simp [step, mqueueDequeue, hne, hq], hrep, hmax, .item x⟩
  | size => exact ⟨q, .count (mqueueSize q), rfl, h, rfl, .length h.size⟩
  | vacuum =>
    obtain ⟨q', hq, hrep, hmax⟩ := mqueueVacuum_spec h
    exact ⟨q', .done, by simp [step, hq], hrep, hmax, .done⟩

theorem slotsRead_live {q : Mqueue α} {l : List (VoidPtr α)} (h : Represents q l) {o : Op α} {i : Nat}
    (hi : i ∈ slotsRead q o) : q.front.toNat ≤ i ∧ i < q.front.toNat + l.length := by
  cases o with
  | enqueue x => simp [slotsRead] at hi
  | size => simp [slotsRead] at hi
  | dequeue =>
    simp only [slotsRead] at hi
    split at hi
    · simp at hi
    · next hne =>
      have hpos : 0 < l.length := by
        rw [List.length_pos_iff]; exact fun h0 => hne (h.isEmpty_iff.mpr h0)
      rcases List.mem_cons.mp hi with rfl | hi
      · omega
      · split at hi
        · rw [List.mem_range'_1, h.size] at hi; omega
        · simp at hi
  | vacuum =>
    simp only [slotsRead] at hi
    split at hi
    · simp at hi
    · rw [List.mem_range'_1, h.size] at hi; exact hi

/-- **The queue refines the bounded list.** From `mqueue_init`, for every sizes
and every sequence of calls during which `alloc_size * 16` stays below 2^64, the
calls all answer; the live slots hold the abstract list, the answers are the
abstract answers, an enqueue at the maximum and a dequeue of the empty queue
change nothing, and every slot the next call reads lies below `alloc_size` and
holds an item enqueued before. -/
theorem mqueue_refines_fifo (hm : ∀ n, malloc n = true) (initialSize maxSize : UInt64)
    (ops : List (Op α))
    (hstays : ∀ q ∈ reached (step malloc) (initialQueue initialSize maxSize) ops,
      q.allocSize.toNat * 16 < 2 ^ 64) :
    mqueueInit malloc initialSize maxSize = .ok (initialQueue initialSize maxSize : Mqueue α) ∧
    ∃ q rs, runOps (step malloc) (initialQueue initialSize maxSize) ops = .ok (q, rs) ∧
      contents q = (runPure (Fifo.step maxSize.toNat) [] ops).1.map some ∧
      List.Forall₂ Answers (runPure (Fifo.step maxSize.toNat) [] ops).2 rs ∧
      (0 < maxSize.toNat ∧ (runPure (Fifo.step maxSize.toNat) [] ops).1.length = maxSize.toNat →
        ∀ x, mqueueEnqueue malloc q x = .ok (q, -1)) ∧
      ((runPure (Fifo.step maxSize.toNat) [] ops).1 = [] → mqueueDequeue q = .ok (q, none)) ∧
      ∀ o, ∀ i ∈ slotsRead q o, i < q.allocSize.toNat ∧
        ∃ x, q.data.cell i = some x ∧ Op.enqueue x ∈ ops := by
  refine ⟨mqueueInit_eq hm _ _, ?_⟩
  have hinit := initialQueue_represents (hstays _ (mem_reached_self _ _))
  have hvisits : ∀ p ∈ visits (step malloc) (initialQueue initialSize maxSize) ops,
      p.1.allocSize.toNat * 16 < 2 ^ 64 := fun p hp => hstays _ (visits_mem_reached hp)
  obtain ⟨q, rs, hrun, ⟨hrep, hmax⟩, hans⟩ := runOps_simulates (Fifo.step maxSize.toNat)
    (fun _ q l => Represents q l ∧ q.maxSize = maxSize) Answers
    (fun q _ => q.allocSize.toNat * 16 < 2 ^ 64)
    (fun o _ q l ⟨hq, hqm⟩ hb => by
      obtain ⟨q', r, hs, hr, hm', ha⟩ := step_spec hm hq hb o
      rw [hqm] at hr ha
      exact ⟨q', r, hs, ⟨hr, hm'.trans hqm⟩, ha⟩)
    ops _ [] ⟨hinit, rfl⟩ hvisits
  refine ⟨q, rs, hrun, hrep.contents, hans, fun hfull x => ?_, fun hempty => ?_, fun o i hi => ?_⟩
  · exact mqueueEnqueue_full (hrep.atMax_iff.mpr (by rwa [hmax])) x
  · exact mqueueDequeue_empty (hrep.isEmpty_iff.mpr hempty)
  · obtain ⟨hlo, hhi⟩ := slotsRead_live hrep hi
    have hroom := hrep.room
    have hk : i - q.front.toNat < (runPure (Fifo.step maxSize.toNat) [] ops).1.length := by omega
    have hcell := hrep.cells.cell_lt hk
    rw [show q.front.toNat + (i - q.front.toNat) = i by omega] at hcell
    refine ⟨by omega, _, hcell, ?_⟩
    rcases Fifo.mem_of_run ops [] (List.getElem_mem hk) with hnil | hop
    · simp at hnil
    · exact hop

/-- A queue of two: the third item is refused, then one is taken out. -/
theorem mqueue_refines_fifo_two :
    ∃ q rs, runOps (step fun _ => true) (initialQueue 1 2)
        [.enqueue (some 7), .enqueue (some 8), .enqueue (some 9), .dequeue, .vacuum] = .ok (q, rs) ∧
      contents q = [some (some 8)] := by
  obtain ⟨_, q, rs, hrun, hc, _⟩ := mqueue_refines_fifo
    (fun _ => rfl : ∀ n, (fun _ : Nat => true) n = true) 1 2
    [.enqueue (some 7), .enqueue (some 8), .enqueue (some 9), .dequeue, .vacuum] (by decide +kernel)
  exact ⟨q, rs, hrun, hc⟩

end Mikelibc.Queue
