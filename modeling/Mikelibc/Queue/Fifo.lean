import Mikelibc.Queue.Code

/-! # What the queue stands for

The abstract queue is a list with an optional bound (`Fifo.step`). `Represents`
says when an `mqueue_t` stands for a list: the live window `front .. rear` lies
inside the array and holds the list, with `rear + 1` read modulo 2^64. Each
operation has one lemma here; the users below (one thread, many threads) cite
these lemmas and never unfold the code. -/
namespace Mikelibc.Queue
open CSem

variable {α : Type} {malloc : Nat → Bool}

/-! ## The abstract queue -/

/-- What the caller of the abstract queue is told. -/
inductive Answer (α : Type) where
  | refused
  | length (n : Nat)
  | item (p : VoidPtr α)
  | done
  deriving DecidableEq

/-- A list with a bound; bound 0 stands for none. -/
def Fifo.step (bound : Nat) (l : List (VoidPtr α)) : Op α → List (VoidPtr α) × Answer α
  | .enqueue x =>
    if 0 < bound ∧ l.length = bound then (l, .refused) else (l ++ [x], .length (l.length + 1))
  | .dequeue => match l with
    | [] => ([], .item none)
    | x :: l => (l, .item x)
  | .size => (l, .length l.length)
  | .vacuum => (l, .done)

/-- The C value that tells the caller the answer: `(uint64_t)-1` for a refusal. -/
inductive Answers : Answer α → Ret α → Prop
  | refused : Answers .refused (.count (-1))
  | length {n : Nat} {c : UInt64} : c.toNat = n → Answers (.length n) (.count c)
  | item (p : VoidPtr α) : Answers (.item p) (.item p)
  | done : Answers .done .done

/-- Everything on the list was put there by an enqueue, or was there before. -/
theorem Fifo.mem_of_step {bound : Nat} {l : List (VoidPtr α)} {o : Op α} {x : VoidPtr α}
    (h : x ∈ (Fifo.step bound l o).1) : x ∈ l ∨ o = .enqueue x := by
  cases o with
  | enqueue y =>
    simp only [Fifo.step] at h
    split at h
    · exact .inl h
    · rcases List.mem_append.mp h with h | h
      · exact .inl h
      · exact .inr (by rw [List.mem_singleton.mp h])
  | dequeue => cases l with
    | nil => simp [Fifo.step] at h
    | cons y l => exact .inl (List.mem_cons_of_mem _ h)
  | size | vacuum => exact .inl h

theorem Fifo.mem_of_run {bound : Nat} {x : VoidPtr α} :
    ∀ (os : List (Op α)) (l : List (VoidPtr α)),
      x ∈ (runPure (Fifo.step bound) l os).1 → x ∈ l ∨ Op.enqueue x ∈ os
  | [], _, h => .inl h
  | o :: os, l, h => by
    rcases Fifo.mem_of_run os _ h with h | h
    · rcases Fifo.mem_of_step h with h | h
      · exact .inl h
      · exact .inr (by simp [h])
    · exact .inr (List.mem_cons_of_mem _ h)

/-! ## Representation -/

/-- `q` stands for the list `l`. -/
structure Represents (q : Mqueue α) (l : List (VoidPtr α)) : Prop where
  rear : (q.rear + 1).toNat = q.front.toNat + l.length
  room : q.front.toNat + l.length ≤ q.allocSize.toNat
  pos : 0 < q.allocSize.toNat
  block : q.data.bytes = 8 * q.allocSize.toNat
  fits : 8 * q.allocSize.toNat < 2 ^ 64
  cells : q.data.Holds q.front.toNat l

/-- The slots `front .. rear`, as the memory has them. -/
def contents (q : Mqueue α) : List (Option (VoidPtr α)) :=
  (List.range (mqueueSizeInt q).toNat).map fun i => q.data.cell (q.front.toNat + i)

theorem toNat_sub_of_eq {a b : UInt64} {n : Nat} (h : a.toNat = b.toNat + n) :
    (a - b).toNat = n := by
  have := a.toNat_lt
  rw [UInt64.toNat_sub]
  omega

theorem toNat_add_one {n : UInt64} (h : n.toNat + 1 < 2 ^ 64) : (n + 1).toNat = n.toNat + 1 := by
  rw [UInt64.toNat_add]
  exact Nat.mod_eq_of_lt h

theorem toNat_double {n : UInt64} (h : n.toNat * 2 < 2 ^ 64) : (n * 2).toNat = n.toNat * 2 := by
  rw [UInt64.toNat_mul]
  exact Nat.mod_eq_of_lt h

theorem toNat_mul_ptrSize {n : UInt64} (h : n.toNat * 8 < 2 ^ 64) :
    (n * ptrSize).toNat = n.toNat * 8 := by
  rw [UInt64.toNat_mul]
  exact Nat.mod_eq_of_lt h

theorem sub_add_one (a b : UInt64) : a - b + 1 = a + 1 - b := by grind

theorem Represents.size {q : Mqueue α} {l : List (VoidPtr α)} (h : Represents q l) :
    (mqueueSizeInt q).toNat = l.length := toNat_sub_of_eq h.rear

theorem Represents.contents {q : Mqueue α} {l : List (VoidPtr α)} (h : Represents q l) :
    contents q = l.map some := by
  unfold Queue.contents
  rw [h.size]
  apply List.ext_getElem
  · simp
  · intro i _ hi
    rw [List.length_map] at hi
    simp [h.cells.cell_lt hi]

theorem Represents.atMax_iff {q : Mqueue α} {l : List (VoidPtr α)} (h : Represents q l) :
    AtMax q ↔ 0 < q.maxSize.toNat ∧ l.length = q.maxSize.toNat := by
  rw [AtMax, ← h.size, ← UInt64.toNat_inj]
  simp [UInt64.lt_iff_toNat_lt]

theorem Represents.isEmpty_iff {q : Mqueue α} {l : List (VoidPtr α)} (h : Represents q l) :
    IsEmpty q ↔ l = [] := by
  rw [IsEmpty, ← UInt64.toNat_inj, h.size]
  simp

/-! ## The operations -/

/-- The queue `mqueue_init` sets up. -/
def initialQueue (initialSize maxSize : UInt64) : Mqueue α :=
  let n := if initialSize < 1 then 1 else initialSize
  ⟨Block.alloc (n * ptrSize).toNat, 0, -1, maxSize, gcCount, n⟩

theorem mqueueInit_eq (hm : ∀ n, malloc n = true) (initialSize maxSize : UInt64) :
    mqueueInit malloc initialSize maxSize = .ok (initialQueue initialSize maxSize : Mqueue α) := by
  simp only [mqueueInit, initialQueue, Outcome.assert_of (hm _), Outcome.ok_bind, Outcome.pure_eq]

/-- It is empty, if the size of its array does not wrap around. -/
theorem initialQueue_represents_of {initialSize maxSize : UInt64}
    (h : (initialQueue initialSize maxSize : Mqueue α).allocSize.toNat * 8 < 2 ^ 64) :
    Represents (initialQueue initialSize maxSize : Mqueue α) [] := by
  obtain ⟨n, hn⟩ : ∃ n, n = (if initialSize < 1 then 1 else initialSize) := ⟨_, rfl⟩
  simp only [initialQueue, ← hn] at h ⊢
  have hpos : 0 < n.toNat := by
    rw [hn]
    split
    · simp
    · next hlt =>
      rw [UInt64.lt_iff_toNat_lt, show (1 : UInt64).toNat = 1 from rfl] at hlt
      omega
  have hbytes : (n * ptrSize).toNat = 8 * n.toNat := by
    rw [toNat_mul_ptrSize (by omega), Nat.mul_comm]
  exact ⟨by simp, Nat.zero_le _, hpos, hbytes, by simp only; omega, Block.holds_nil _ _⟩

theorem initialQueue_represents {initialSize maxSize : UInt64}
    (h : (initialQueue initialSize maxSize : Mqueue α).allocSize.toNat * 16 < 2 ^ 64) :
    Represents (initialQueue initialSize maxSize : Mqueue α) [] :=
  initialQueue_represents_of (by omega)

theorem grow_room {q : Mqueue α} (h : q.rear ≠ q.allocSize) : grow malloc q = .ok q := by
  simp [grow, h]

theorem grow_full {q : Mqueue α} (hm : malloc (q.allocSize * ptrSize * 2).toNat = true)
    (h : q.rear = q.allocSize) :
    grow malloc q = .ok { q with
      data := q.data.realloc (q.allocSize * ptrSize * 2).toNat
      allocSize := q.allocSize * 2 } := by
  simp only [grow, if_pos h, Outcome.assert_of hm, Outcome.ok_bind, Outcome.pure_eq]

/-- Making room for one more item keeps what the queue holds. -/
theorem grow_spec (hm : ∀ n, malloc n = true) {q : Mqueue α} {l : List (VoidPtr α)}
    (h : Represents q l) (hb : q.rear + 1 = q.allocSize → q.allocSize.toNat * 16 < 2 ^ 64) :
    ∃ q', grow malloc { q with rear := q.rear + 1 } = .ok q' ∧ q'.front = q.front ∧
      q'.rear = q.rear + 1 ∧ q'.maxSize = q.maxSize ∧ q.front.toNat + l.length < q'.allocSize.toNat ∧
      q'.data.bytes = 8 * q'.allocSize.toNat ∧ 8 * q'.allocSize.toNat < 2 ^ 64 ∧
      q'.data.Holds q.front.toNat l := by
  have hroom := h.room
  have hpos := h.pos
  have hrear := h.rear
  by_cases hfull : q.rear + 1 = q.allocSize
  · -- the array is full: it is doubled, and the sizes do not wrap around
    have hb := hb hfull
    have hlen : q.front.toNat + l.length = q.allocSize.toNat := by rw [← hrear, hfull]
    have hdouble : (q.allocSize * 2).toNat = q.allocSize.toNat * 2 := toNat_double (by omega)
    have hsize : (q.allocSize * ptrSize).toNat = q.allocSize.toNat * 8 := toNat_mul_ptrSize (by omega)
    have hbytes : (q.allocSize * ptrSize * 2).toNat = 8 * (q.allocSize * 2).toNat := by
      rw [toNat_double (by omega), hsize, hdouble]
      omega
    refine ⟨_, grow_full (hm _) hfull, rfl, rfl, rfl, ?_, hbytes, ?_, ?_⟩
    · simp only; omega
    · simp only; omega
    · refine h.cells.congr fun i _ hi => if_pos ?_
      rw [h.block, hbytes, hdouble]
      omega
  · have hne : q.front.toNat + l.length ≠ q.allocSize.toNat := by
      rw [← hrear]; exact fun he => hfull (UInt64.toNat_inj.mp he)
    exact ⟨_, grow_room hfull, rfl, rfl, rfl, by simp only; omega, h.block, h.fits, h.cells⟩

/-- Past the guard, enqueue appends the item and returns the new length. -/
theorem enqueueLocked_spec (hm : ∀ n, malloc n = true) {q : Mqueue α} {l : List (VoidPtr α)}
    (h : Represents q l) (hb : q.rear + 1 = q.allocSize → q.allocSize.toNat * 16 < 2 ^ 64)
    (x : VoidPtr α) :
    ∃ q' n, enqueueLocked malloc q x = .ok (q', n) ∧ Represents q' (l ++ [x]) ∧
      n.toNat = l.length + 1 ∧ q'.maxSize = q.maxSize := by
  obtain ⟨g, hg, hfront, hrear, hmax, hroom, hblock, hfits, hcells⟩ := grow_spec hm h hb
  have hslot : g.rear.toNat = q.front.toNat + l.length := by rw [hrear, h.rear]
  have hin : g.data.Fits g.rear.toNat := by unfold Block.Fits; omega
  let q' : Mqueue α := { g with
    data := { g.data with cell := Function.update g.data.cell g.rear.toNat (some x) } }
  have hrep : Represents q' (l ++ [x]) := by
    refine ⟨?_, ?_, by simp only [q']; omega, hblock, hfits, ?_⟩
    · have := g.allocSize.toNat_lt
      simp only [q', UInt64.toNat_add, hslot, hfront, List.length_append, List.length_singleton]
      simp
      omega
    · simp only [q', hfront, List.length_append, List.length_singleton]; omega
    · -- the items before keep their slots, the new one is at `rear`
      simp only [q', hfront]
      rw [Block.holds_append, Block.holds_cons]
      refine ⟨hcells.congr fun i _ hi => Function.update_of_ne (by omega) _ _, ?_,
        Block.holds_nil _ _⟩
      simp [hslot]
  refine ⟨q', mqueueSizeInt q', ?_, hrep, by rw [hrep.size]; simp, hmax⟩
  simp [enqueueLocked, hg, Block.store_of x hin, q']

/-- The queue with its window moved down to slot 0. -/
def Mqueue.slid (q : Mqueue α) : Mqueue α := { q with rear := q.rear - q.front, front := 0 }

/-- It represents what the array holds from slot 0 on. -/
theorem Represents.slid {q : Mqueue α} {l l' : List (VoidPtr α)} (h : Represents q l)
    {data : Block (VoidPtr α) 8} (hbytes : data.bytes = q.data.bytes) (hlen : l'.length = l.length)
    (hcells : data.Holds 0 l') : Represents { q with data := data }.slid l' := by
  have hrear := h.rear
  have hroom := h.room
  refine ⟨?_, ?_, h.pos, hbytes.trans h.block, h.fits, hcells⟩
  · -- `rear` moves down by `front`; for an empty queue it wraps around to -1
    simp only [Mqueue.slid, sub_add_one, toNat_sub_of_eq hrear, hlen]
    simp
  · simp only [Mqueue.slid]
    rw [show (0 : UInt64).toNat = 0 from rfl]
    omega

theorem Represents.bytes2copy {q : Mqueue α} {l : List (VoidPtr α)} (h : Represents q l) :
    (ptrSize * mqueueSizeInt q).toNat / 8 = l.length := by
  have hroom := h.room
  have hfits := h.fits
  rw [UInt64.mul_comm, toNat_mul_ptrSize (by rw [h.size]; omega), h.size]
  omega

/-- The `memmove` copies the items to slot 0 and leaves the slots behind them. -/
theorem Represents.memmove {q : Mqueue α} {l : List (VoidPtr α)} (h : Represents q l) :
    ∃ data, q.data.memmove 0 q.front.toNat l.length = .ok data ∧ data.bytes = q.data.bytes ∧
      data.Holds 0 l ∧ ∀ i, l.length ≤ i → data.cell i = q.data.cell i := by
  have hroom := h.room
  have hin : l.length = 0 ∨ (q.data.Fits (0 + l.length - 1) ∧
      q.data.Fits (q.front.toNat + l.length - 1)) := by
    simp only [Block.Fits, h.block]; omega
  have hwritten : ∀ i < l.length, (q.data.cell (q.front.toNat + i)).isSome := fun i hi => by
    rw [h.cells.cell_lt hi]; rfl
  refine ⟨_, Block.memmove_of hin hwritten, rfl, fun i x hx => ?_, fun i hi => ?_⟩
  · have hi := (List.getElem?_eq_some_iff.mp hx).1
    simpa [hi] using h.cells i x hx
  · exact if_neg (by omega)

/-- A vacuum moves the window to the start of the array and keeps what it holds. -/
theorem mqueueVacuum_spec {q : Mqueue α} {l : List (VoidPtr α)} (h : Represents q l) :
    ∃ q', mqueueVacuum q = .ok q' ∧ Represents q' l ∧ q'.maxSize = q.maxSize := by
  by_cases h0 : q.front = 0
  · exact ⟨q, by simp [mqueueVacuum, h0], h, rfl⟩
  · obtain ⟨data, hmove, hbytes, hcells, _⟩ := h.memmove
    refine ⟨{ q with data := data }.slid, ?_, h.slid hbytes rfl hcells, rfl⟩
    simp only [mqueueVacuum, if_neg h0, h.bytes2copy, hmove, Outcome.ok_bind]
    rfl

/-- Past the guard, dequeue removes and returns the head. -/
theorem dequeueLocked_spec {q : Mqueue α} {x : VoidPtr α} {l : List (VoidPtr α)}
    (h : Represents q (x :: l)) :
    ∃ q', dequeueLocked q = .ok (q', x) ∧ Represents q' l ∧ q'.maxSize = q.maxSize := by
  obtain ⟨hx, hl⟩ := Block.holds_cons.mp h.cells
  have hroom := h.room
  have hrear := h.rear
  have hfits := h.fits
  simp only [List.length_cons] at hroom hrear
  have hload : q.data.load q.front.toNat = .ok x :=
    Block.load_of (by simp only [Block.Fits, h.block]; omega) hx
  have hfront : (q.front + 1).toNat = q.front.toNat + 1 := toNat_add_one (by omega)
  have htaken : Represents { q with front := q.front + 1, gcRun := q.gcRun - 1 } l := by
    refine ⟨?_, ?_, h.pos, h.block, h.fits, ?_⟩
    · simp only [hfront]; omega
    · simp only [hfront]; omega
    · simpa only [hfront] using hl
  by_cases hgc : q.gcRun - 1 = 0
  · obtain ⟨v, hv, hrep, hmax⟩ := mqueueVacuum_spec htaken
    refine ⟨{ v with gcRun := gcCount }, ?_,
      ⟨hrep.rear, hrep.room, hrep.pos, hrep.block, hrep.fits, hrep.cells⟩,
      hmax⟩
    simp only [hgc] at hv
    simp [dequeueLocked, hload, housekeeping, hgc, hv]
  · exact ⟨_, by simp [dequeueLocked, hload, housekeeping, hgc], htaken, rfl⟩

end Mikelibc.Queue
