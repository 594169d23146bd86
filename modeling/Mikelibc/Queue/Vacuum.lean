import Mikelibc.Queue.Slack

/-! # A vacuum called directly, among other threads

An enqueue or a dequeue holds the mutex for all it does, and is one step; one that finds
the queue full or empty waits, and does nothing. A thread that calls `mqueue_vacuum`
itself holds no mutex: each of its statements is a step of its own, with the threads'
steps in between. Of a `realloc` that moves the array the pointers of the vacuum know
nothing: to use one then is a `fault`. -/
namespace Mikelibc.Queue
open CSem

variable {α : Type} (malloc : Nat → Bool)

/-- A pointer into `queue->data`: which of the arrays it has been, and the slot. -/
structure Pointer where
  block : Nat
  slot : Nat
  deriving DecidableEq

/-- The statement of `mqueue_vacuum` that comes next, with its variables; at first the call with
the test of `front`. -/
inductive Stage where
  | call
  | dest
  | src (dest : Pointer)
  | size (dest src : Pointer)
  | memmove (dest src : Pointer) (bytes2copy : UInt64)
  | rear
  | front
  deriving DecidableEq

/-- The queue, how often its array has moved, where the vacuum is, and what has gone in and out. -/
structure Shared (α : Type) where
  queue : Mqueue α
  block : Nat
  stage : Stage
  enqueued : List (VoidPtr α)
  dequeued : List (VoidPtr α)

def vacuumStep (s : Shared α) : Outcome (Shared α) :=
  let q := s.queue
  match s.stage with
  | .call => return { s with stage := if q.front = 0 then .call else .dest }
  | .dest => return { s with stage := .src ⟨s.block, 0⟩ }
  | .src dest => return { s with stage := .size dest ⟨s.block, q.front.toNat⟩ }
  | .size dest src => return { s with stage := .memmove dest src (ptrSize * mqueueSizeInt q) }
  | .memmove dest src bytes2copy => do
    Outcome.require (dest.block = s.block ∧ src.block = s.block)
    let data ← q.data.memmove dest.slot src.slot (bytes2copy.toNat / 8)
    return { s with queue := { q with data := data }, stage := .rear }
  | .rear => return { s with queue := { q with rear := q.rear - q.front }, stage := .front }
  | .front => return { s with queue := { q with front := 0 }, stage := .call }

/-- The next enqueue has to make the array larger. -/
def IsFull (q : Mqueue α) : Prop := q.rear + 1 = q.allocSize

instance (q : Mqueue α) : Decidable (IsFull q) := inferInstanceAs (Decidable (_ = _))

inductive Act (α : Type) where
  | enqueue (item : VoidPtr α)
  | dequeue
  | vacuum

def actStep (s : Shared α) : Act α → Outcome (Shared α × Unit)
  | .enqueue item =>
    if AtMax s.queue then return (s, ()) else do
      let (queue, _) ← enqueueLocked malloc s.queue item
      return ({ s with
        queue := queue
        block := if IsFull s.queue then s.block + 1 else s.block
        enqueued := s.enqueued ++ [item] }, ())
  | .dequeue =>
    if IsEmpty s.queue then return (s, ()) else do
      let (queue, item) ← dequeueLocked s.queue
      return ({ s with queue := queue, dequeued := s.dequeued ++ [item] }, ())
  | .vacuum => do
    let s ← vacuumStep s
    return (s, ())

def Shared.start (initialSize maxSize : UInt64) : Shared α :=
  ⟨initialQueue initialSize maxSize, 0, .call, [], []⟩

@[simp] theorem Shared.start_queue (initialSize maxSize : UInt64) :
    (Shared.start initialSize maxSize : Shared α).queue = initialQueue initialSize maxSize :=
  rfl

variable {malloc : Nat → Bool}

/-- With no step in between, the statements are `mqueue_vacuum`. -/
theorem vacuum_undisturbed (s : Shared α) (hcall : s.stage = .call) (hfront : s.queue.front ≠ 0) :
    runOps (actStep malloc) s (List.replicate 7 .vacuum) = (do
      let queue ← mqueueVacuum s.queue
      return ({ s with queue := queue }, List.replicate 7 ())) := by
  obtain ⟨q, block, stage, enqueued, dequeued⟩ := s
  subst hcall
  simp only [List.replicate, runOps, actStep, vacuumStep, mqueueVacuum, if_neg hfront,
    Outcome.ok_bind, Outcome.pure_eq, Outcome.require_of, and_self]
  cases q.data.memmove 0 q.front.toNat ((ptrSize * mqueueSizeInt q).toNat / 8) with
  | ok data => rfl
  | abort | fault | hang => rfl

/-! ## Which steps do no harm -/

/-- An enqueue does no harm before the size is read, if the vacuum's pointers stay good, and when
`rear` has been moved down; in between only where there is nothing to move or to copy. -/
def EnqueueHarmless (q : Mqueue α) : Stage → Prop
  | .call | .dest | .front => True
  | .src _ => ¬ IsFull q
  | .size _ src => ¬ IsFull q ∧ src.slot = q.front.toNat
  | .memmove _ src bytes2copy => ¬ IsFull q ∧ q.front = 0 ∧ (src.slot = 0 ∨ bytes2copy = 0)
  | .rear => q.front = 0

/-- A dequeue does no harm before `src` is read; then only if it takes the last item, or if its own
vacuum moves items that the `memmove` has left whole. -/
def DequeueHarmless (q : Mqueue α) : Stage → Prop
  | .call | .dest | .src _ => True
  | .size _ _ | .memmove _ _ _ => mqueueSizeInt q = 1
  | .rear => mqueueSizeInt q = 1 ∨ (q.gcRun = 1 ∧ (mqueueSizeInt q).toNat ≤ q.front.toNat)
  | .front => False

/-- An enqueue or a dequeue that waits does no harm. -/
def Harmless (s : Shared α) : Act α → Prop
  | .vacuum => True
  | .enqueue _ => AtMax s.queue ∨ EnqueueHarmless s.queue s.stage
  | .dequeue => IsEmpty s.queue ∨ DequeueHarmless s.queue s.stage

instance (q : Mqueue α) : (stage : Stage) → Decidable (EnqueueHarmless q stage)
  | .call | .dest | .front => inferInstanceAs (Decidable True)
  | .src _ => inferInstanceAs (Decidable (¬ _))
  | .size _ _ | .memmove _ _ _ => inferInstanceAs (Decidable (_ ∧ _))
  | .rear => inferInstanceAs (Decidable (_ = _))

instance (q : Mqueue α) : (stage : Stage) → Decidable (DequeueHarmless q stage)
  | .call | .dest | .src _ => inferInstanceAs (Decidable True)
  | .size _ _ | .memmove _ _ _ => inferInstanceAs (Decidable (_ = _))
  | .rear => inferInstanceAs (Decidable (_ ∨ _))
  | .front => inferInstanceAs (Decidable False)

instance (s : Shared α) : (a : Act α) → Decidable (Harmless s a)
  | .vacuum => inferInstanceAs (Decidable True)
  | .enqueue _ | .dequeue => inferInstanceAs (Decidable (_ ∨ _))

/-! ## The queue while a vacuum is under way -/

/-- The `n` slots from `slot` on lie in the array and have been written. -/
def Written (q : Mqueue α) (slot n : Nat) : Prop :=
  n = 0 ∨ slot + n ≤ q.allocSize.toNat ∧ ∀ i < n, (q.data.cell (slot + i)).isSome

/-- After the `memmove`: the items are at slot 0, and where they were too if there is room. -/
structure Moved (q : Mqueue α) (l : List (VoidPtr α)) : Prop where
  rear : (q.rear + 1).toNat = q.front.toNat + l.length
  down : Represents q.slid l
  apart : l.length ≤ q.front.toNat → Represents q l

/-- What the `memmove` of `n` slots from `slot` on does to the queue is right: it moves the window
down, or has nothing to move. -/
def Copies (q : Mqueue α) (slot n : Nat) (l : List (VoidPtr α)) : Prop :=
  (slot = q.front.toNat ∧ n = l.length) ∨ (q.front = 0 ∧ (slot = 0 ∨ n = 0)) ∨ l = []

/-- The vacuum, if it is left alone from here on, leaves a queue that represents `l`. -/
def Holding (s : Shared α) (l : List (VoidPtr α)) : Prop :=
  match s.stage with
  | .call | .dest => Represents s.queue l
  | .src dest => Represents s.queue l ∧ dest = ⟨s.block, 0⟩
  | .size dest src => Represents s.queue l ∧ dest = ⟨s.block, 0⟩ ∧ src.block = s.block ∧
      (src.slot = s.queue.front.toNat ∨ l = [])
  | .memmove dest src bytes2copy => Represents s.queue l ∧ dest = ⟨s.block, 0⟩ ∧
      src.block = s.block ∧ Written s.queue src.slot (bytes2copy.toNat / 8) ∧
      Copies s.queue src.slot (bytes2copy.toNat / 8) l
  | .rear => Moved s.queue l
  | .front => Represents { s.queue with front := 0 } l

variable {q q' : Mqueue α} {l : List (VoidPtr α)} {s : Shared α}

theorem slid_of_front (h : q.front = 0) : q.slid = q := by
  obtain ⟨data, front, rear, maxSize, gcRun, allocSize⟩ := q
  obtain rfl : front = 0 := h
  simp [Mqueue.slid]

theorem Represents.moved (h : Represents q l) (hdown : Represents q.slid l) : Moved q l :=
  ⟨h.rear, hdown, fun _ => h⟩

theorem Represents.moved_of_front (h : Represents q l) (hfront : q.front = 0) : Moved q l :=
  h.moved ((slid_of_front hfront).symm ▸ h)

theorem Represents.moved_nil (h : Represents q []) : Moved q [] :=
  h.moved (h.slid rfl rfl (Block.holds_nil _ _))

theorem Represents.written (h : Represents q l) : Written q q.front.toNat l.length :=
  .inr ⟨h.room, fun i hi => by rw [h.cells.cell_lt hi]; rfl⟩

theorem Written.memmove {slot n : Nat} (h : Written q slot n) (hrep : Represents q l) :
    ∃ data, q.data.memmove 0 slot n = .ok data ∧ data.bytes = q.data.bytes := by
  by_cases h0 : n = 0
  · exact ⟨_, Block.memmove_of (.inl h0) fun i hi => absurd hi (by omega), rfl⟩
  · obtain ⟨hroom, hcells⟩ := h.resolve_left h0
    refine ⟨_, Block.memmove_of (.inr ?_) hcells, rfl⟩
    simp only [Block.Fits, hrep.block]
    omega

/-- What the `memmove` leaves, in each of the cases the steps before can have led to. -/
theorem memmove_moved {slot n : Nat} (hrep : Represents q l) (hwritten : Written q slot n)
    (hcopies : Copies q slot n l) :
    ∃ data, q.data.memmove 0 slot n = .ok data ∧ Moved { q with data := data } l := by
  obtain ⟨rfl, rfl⟩ | ⟨hfront, hnothing⟩ | rfl := hcopies
  · obtain ⟨data, hmove, hbytes, hcells, hbehind⟩ := hrep.memmove
    refine ⟨data, hmove, hrep.rear, hrep.slid hbytes rfl hcells, fun hapart => ?_⟩
    exact ⟨hrep.rear, hrep.room, hrep.pos, hbytes.trans hrep.block, hrep.fits,
      hrep.cells.congr fun i hi _ => hbehind i (Nat.le_trans hapart hi)⟩
  · -- the window is at slot 0 already, and stays as it is
    obtain ⟨data, hmove, _⟩ := hwritten.memmove hrep
    obtain rfl := Block.memmove_nothing hnothing hmove
    exact ⟨_, hmove, hrep.moved_of_front hfront⟩
  · obtain ⟨data, hmove, hbytes⟩ := hwritten.memmove hrep
    refine ⟨data, hmove, Represents.moved_nil ?_⟩
    exact ⟨hrep.rear, hrep.room, hrep.pos, hbytes.trans hrep.block, hrep.fits, Block.holds_nil _ _⟩

/-- The next statement keeps what the vacuum will leave. -/
theorem vacuumStep_holding (h : Holding s l) : ∃ s', vacuumStep s = .ok s' ∧ Holding s' l ∧
    s'.enqueued = s.enqueued ∧ s'.dequeued = s.dequeued := by
  obtain ⟨q, block, stage, enqueued, dequeued⟩ := s
  cases stage with
  | call =>
    by_cases h0 : q.front = 0
    · exact ⟨⟨q, block, .call, enqueued, dequeued⟩, by simp [vacuumStep, h0], h, rfl, rfl⟩
    · exact ⟨⟨q, block, .dest, enqueued, dequeued⟩, by simp [vacuumStep, h0], h, rfl, rfl⟩
  | dest => exact ⟨_, rfl, ⟨h, rfl⟩, rfl, rfl⟩
  | src dest =>
    obtain ⟨hrep, hdest⟩ := h
    exact ⟨_, rfl, ⟨hrep, hdest, rfl, .inl rfl⟩, rfl, rfl⟩
  | size dest src =>
    obtain ⟨hrep, hdest, hblock, hslot⟩ := h
    simp only at hrep hslot
    refine ⟨_, rfl, ⟨hrep, hdest, hblock, ?_, ?_⟩, rfl, rfl⟩
    · rw [hrep.bytes2copy]
      obtain hslot | rfl := hslot
      · rw [hslot]
        exact hrep.written
      · exact .inl rfl
    · exact hslot.imp (fun hslot => ⟨hslot, hrep.bytes2copy⟩) .inr
  | memmove dest src bytes2copy =>
    obtain ⟨hrep, hdest, hblock, hwritten, hcopies⟩ := h
    simp only at hdest
    subst hdest
    obtain ⟨data, hmove, hmoved⟩ := memmove_moved hrep hwritten hcopies
    refine ⟨⟨{ q with data := data }, block, .rear, enqueued, dequeued⟩, ?_, hmoved, rfl, rfl⟩
    simp only at hblock hmove
    simp [vacuumStep, Outcome.require, hblock, hmove]
  | rear => exact ⟨_, rfl, h.down, rfl, rfl⟩
  | front => exact ⟨_, rfl, h, rfl, rfl⟩

/-! ## What the threads do meanwhile -/

section Threads
variable {malloc : Nat → Bool} {x : VoidPtr α} {n : UInt64}

theorem grow_front {f : UInt64} (h : grow malloc { q with front := f } = .ok q') :
    grow malloc q = .ok { q' with front := q.front } := by
  unfold grow at h ⊢
  by_cases hfull : q.rear = q.allocSize
  · simp only [if_pos hfull] at h ⊢
    obtain ⟨_, hgranted, h⟩ := Outcome.bind_eq_ok.mp h
    cases h
    rw [hgranted]
    rfl
  · simp only [if_neg hfull] at h ⊢
    cases h
    rfl

/-- An enqueue does not depend on `front`, but for the size it returns. -/
theorem enqueueLocked_front {f : UInt64}
    (h : enqueueLocked malloc { q with front := f } x = .ok (q', n)) :
    ∃ n', enqueueLocked malloc q x = .ok ({ q' with front := q.front }, n') := by
  obtain ⟨g, hg, h⟩ := Outcome.bind_eq_ok.mp h
  obtain ⟨data, hdata, h⟩ := Outcome.bind_eq_ok.mp h
  cases h
  have hgrow := grow_front (q := { q with rear := q.rear + 1 }) hg
  refine ⟨mqueueSizeInt { g with data := data, front := q.front }, ?_⟩
  unfold enqueueLocked
  rw [hgrow, Outcome.ok_bind, hdata]
  rfl

theorem enqueueLocked_isSome (h : enqueueLocked malloc q x = .ok (q', n)) (hfull : ¬ IsFull q)
    {i : Nat} (hi : (q.data.cell i).isSome) : (q'.data.cell i).isSome := by
  obtain ⟨g, hg, h⟩ := Outcome.bind_eq_ok.mp h
  obtain ⟨data, hdata, h⟩ := Outcome.bind_eq_ok.mp h
  cases h
  rw [grow_room (q := { q with rear := q.rear + 1 }) hfull] at hg
  cases hg
  obtain ⟨_, rfl⟩ := Block.store_eq_ok.mp hdata
  simp only [Function.update_apply]
  split
  · rfl
  · exact hi

theorem enqueueLocked_written {slot k : Nat} (h : enqueueLocked malloc q x = .ok (q', n))
    (hfull : ¬ IsFull q) (hw : Written q slot k) : Written q' slot k := by
  refine hw.imp_right fun hroom => ?_
  obtain ⟨_, _, hsame | ⟨hdouble, _⟩⟩ := enqueueLocked_counters h
  · exact ⟨hsame ▸ hroom.1, fun i hi => enqueueLocked_isSome h hfull (hroom.2 i hi)⟩
  · exact absurd hdouble hfull

theorem mqueueVacuum_isSome (h : mqueueVacuum q = .ok q') {i : Nat}
    (hi : (q.data.cell i).isSome) : (q'.data.cell i).isSome := by
  unfold mqueueVacuum at h
  split at h
  · cases h; exact hi
  · obtain ⟨data, hmove, h⟩ := Outcome.bind_eq_ok.mp h
    cases h
    exact Block.memmove_isSome hmove hi

theorem dequeueLocked_isSome (h : dequeueLocked q = .ok (q', x)) {i : Nat}
    (hi : (q.data.cell i).isSome) : (q'.data.cell i).isSome := by
  obtain ⟨_, _, h⟩ := Outcome.bind_eq_ok.mp h
  obtain ⟨p, hp, h⟩ := Outcome.bind_eq_ok.mp h
  cases h
  unfold housekeeping at hp
  split at hp
  · obtain ⟨v, hv, hp⟩ := Outcome.bind_eq_ok.mp hp
    cases hp
    exact mqueueVacuum_isSome hv hi
  · cases hp; exact hi

theorem dequeueLocked_written {slot k : Nat} (h : dequeueLocked q = .ok (q', x))
    (hw : Written q slot k) : Written q' slot k := by
  refine hw.imp_right fun hroom => ?_
  have halloc := (dequeueLocked_counters h).1
  exact ⟨halloc ▸ hroom.1, fun i hi => dequeueLocked_isSome h (hroom.2 i hi)⟩

/-- An enqueue that does no harm adds its item at the end of what the vacuum will leave. -/
theorem enqueue_holding (hm : ∀ n, malloc n = true) (hb : s.queue.allocSize.toNat * 16 < 2 ^ 64)
    (h : Holding s l) (hfree : ¬ AtMax s.queue) (hharmless : Harmless s (.enqueue x)) :
    ∃ s', actStep malloc s (.enqueue x) = .ok (s', ()) ∧ Holding s' (l ++ [x]) ∧
      s'.enqueued = s.enqueued ++ [x] ∧ s'.dequeued = s.dequeued := by
  obtain ⟨q, block, stage, enqueued, dequeued⟩ := s
  have hharmless := hharmless.resolve_left hfree
  simp only at hb hfree hharmless
  suffices hq : ∃ q' n, enqueueLocked malloc q x = .ok (q', n) ∧
      Holding ⟨q', if IsFull q then block + 1 else block, stage, enqueued ++ [x], dequeued⟩
        (l ++ [x]) by
    obtain ⟨q', n, hq, hholding⟩ := hq
    exact ⟨_, by simp [actStep, hfree, hq], hholding, rfl, rfl⟩
  have hspec := fun hrep : Represents q l => enqueueLocked_spec hm hrep (fun _ => hb) x
  cases stage with
  | call =>
    obtain ⟨q', n, hq, hrep, _⟩ := hspec h
    exact ⟨q', n, hq, hrep⟩
  | dest =>
    obtain ⟨q', n, hq, hrep, _⟩ := hspec h
    exact ⟨q', n, hq, hrep⟩
  | src dest =>
    obtain ⟨hrep, hdest⟩ := h
    obtain ⟨q', n, hq, hrep, _⟩ := hspec hrep
    exact ⟨q', n, hq, hrep, by rw [if_neg hharmless]; exact hdest⟩
  | size dest src =>
    obtain ⟨hrep, hdest, hblock, _⟩ := h
    obtain ⟨hfull, hslot⟩ := hharmless
    obtain ⟨q', n, hq, hrep, _⟩ := hspec hrep
    have hfront := (enqueueLocked_counters hq).1
    rw [if_neg hfull]
    exact ⟨q', n, hq, hrep, hdest, hblock, .inl (by rw [hfront]; exact hslot)⟩
  | memmove dest src bytes2copy =>
    obtain ⟨hrep, hdest, hblock, hwritten, _⟩ := h
    obtain ⟨hfull, hfront, hnothing⟩ := hharmless
    obtain ⟨q', n, hq, hrep, _⟩ := hspec hrep
    have hfront' := (enqueueLocked_counters hq).1
    rw [if_neg hfull]
    refine ⟨q', n, hq, hrep, hdest, hblock, enqueueLocked_written hq hfull hwritten, ?_⟩
    exact .inr (.inl ⟨hfront'.trans hfront, hnothing.imp_right fun h0 => by rw [h0]; rfl⟩)
  | rear =>
    have hrep : Represents q l := slid_of_front hharmless ▸ h.down
    obtain ⟨q', n, hq, hrep, _⟩ := hspec hrep
    exact ⟨q', n, hq, hrep.moved_of_front ((enqueueLocked_counters hq).1.trans hharmless)⟩
  | front =>
    obtain ⟨q', n, hq, hrep, _⟩ := enqueueLocked_spec hm h (fun _ => hb) x
    obtain ⟨n', hq'⟩ := enqueueLocked_front hq
    refine ⟨_, n', hq', ?_⟩
    have hfront : q'.front = 0 := (enqueueLocked_counters hq).1
    simp only [Holding]
    rw [← hfront]
    exact hrep

/-- A dequeue that does no harm takes out the first item of what the vacuum will leave. -/
theorem dequeue_holding (malloc : Nat → Bool) (h : Holding s l) (hne : ¬ IsEmpty s.queue)
    (hharmless : Harmless s .dequeue) : ∃ s' x l', l = x :: l' ∧
      actStep malloc s .dequeue = .ok (s', ()) ∧ Holding s' l' ∧
      s'.enqueued = s.enqueued ∧ s'.dequeued = s.dequeued ++ [x] := by
  obtain ⟨q, block, stage, enqueued, dequeued⟩ := s
  have hharmless := hharmless.resolve_left hne
  simp only at hne hharmless
  suffices hq : ∃ q' x l', l = x :: l' ∧ dequeueLocked q = .ok (q', x) ∧
      Holding ⟨q', block, stage, enqueued, dequeued ++ [x]⟩ l' by
    obtain ⟨q', x, l', hl, hq, hholding⟩ := hq
    exact ⟨_, x, l', hl, by simp [actStep, hne, hq], hholding, rfl, rfl⟩
  have hspec : Represents q l → ∃ q' x l', l = x :: l' ∧ dequeueLocked q = .ok (q', x) ∧
      Represents q' l' := fun hrep => by
    cases l with
    | nil => exact absurd (hrep.isEmpty_iff.mpr rfl) hne
    | cons x l' =>
      obtain ⟨q', hq, hrep', _⟩ := dequeueLocked_spec hrep
      exact ⟨q', x, l', rfl, hq, hrep'⟩
  -- a queue with one item is empty afterwards
  have hlast : Represents q l → mqueueSizeInt q = 1 → ∃ q' x, l = [x] ∧
      dequeueLocked q = .ok (q', x) ∧ Represents q' [] := fun hrep hone => by
    have hsize := hrep.size
    obtain ⟨q', x, l', rfl, hq, hrep'⟩ := hspec hrep
    rw [hone, List.length_cons] at hsize
    obtain rfl : l' = [] := List.length_eq_zero_iff.mp (Nat.succ.inj hsize).symm
    exact ⟨q', x, rfl, hq, hrep'⟩
  cases stage with
  | call => exact hspec h
  | dest => exact hspec h
  | src dest =>
    obtain ⟨hrep, hdest⟩ := h
    obtain ⟨q', x, l', hl, hq, hrep⟩ := hspec hrep
    exact ⟨q', x, l', hl, hq, hrep, hdest⟩
  | size dest src =>
    obtain ⟨hrep, hdest, hblock, _⟩ := h
    obtain ⟨q', x, hl, hq, hrep⟩ := hlast hrep hharmless
    exact ⟨q', x, [], hl, hq, hrep, hdest, hblock, .inr rfl⟩
  | memmove dest src bytes2copy =>
    obtain ⟨hrep, hdest, hblock, hwritten, _⟩ := h
    obtain ⟨q', x, hl, hq, hrep⟩ := hlast hrep hharmless
    exact ⟨q', x, [], hl, hq, hrep, hdest, hblock, dequeueLocked_written hq hwritten,
      .inr (.inr rfl)⟩
  | rear =>
    have hsize : (mqueueSizeInt q).toNat = l.length := toNat_sub_of_eq h.rear
    obtain hone | ⟨hgc, hapart⟩ := hharmless
    · -- one item: it is still where it was
      have hrep : Represents q l := by
        by_cases hfront : q.front = 0
        · exact slid_of_front hfront ▸ h.down
        · refine h.apart ?_
          rw [← hsize, hone]
          exact Nat.pos_of_ne_zero fun h0 => hfront (UInt64.toNat_inj.mp h0)
      obtain ⟨q', x, hl, hq, hrep⟩ := hlast hrep hone
      exact ⟨q', x, [], hl, hq, hrep.moved_nil⟩
    · obtain ⟨q', x, l', hl, hq, hrep⟩ := hspec (h.apart (hsize ▸ hapart))
      obtain ⟨_, ⟨hfront, _⟩ | ⟨hrun, _⟩⟩ := dequeueLocked_counters hq
      · exact ⟨q', x, l', hl, hq, hrep.moved_of_front hfront⟩
      · exact absurd (by rw [hgc]; rfl) hrun
  | front => exact hharmless.elim

/-! ## Runs -/

/-- What has gone in is what has gone out and what the vacuum will leave. -/
def Accounted (s : Shared α) : Prop := ∃ l, Holding s l ∧ s.enqueued = s.dequeued ++ l

theorem actStep_accounted (hm : ∀ n, malloc n = true) (hb : s.queue.allocSize.toNat * 16 < 2 ^ 64)
    {a : Act α} (h : Accounted s) (hharmless : Harmless s a) :
    ∃ s', actStep malloc s a = .ok (s', ()) ∧ Accounted s' := by
  obtain ⟨l, hholding, hsum⟩ := h
  cases a with
  | enqueue x =>
    by_cases hmax : AtMax s.queue
    · exact ⟨s, by simp [actStep, hmax], l, hholding, hsum⟩
    · obtain ⟨s', hs, hholding', henq, hdeq⟩ := enqueue_holding hm hb hholding hmax hharmless
      exact ⟨s', hs, l ++ [x], hholding', by rw [henq, hdeq, hsum, List.append_assoc]⟩
  | dequeue =>
    by_cases hempty : IsEmpty s.queue
    · exact ⟨s, by simp [actStep, hempty], l, hholding, hsum⟩
    · obtain ⟨s', x, l', rfl, hs, hholding', henq, hdeq⟩ :=
        dequeue_holding malloc hholding hempty hharmless
      exact ⟨s', hs, l', hholding', by rw [henq, hdeq, hsum, List.append_assoc]; rfl⟩
  | vacuum =>
    obtain ⟨s', hs, hholding', henq, hdeq⟩ := vacuumStep_holding hholding
    exact ⟨s', by simp [actStep, hs], l, hholding', by rw [henq, hdeq, hsum]⟩

/-- **A vacuum among other threads.** From `mqueue_init`, in every interleaving of enqueues,
dequeues and the statements of direct vacuums whose steps do no harm, every step goes well, and
whenever no vacuum is under way the queue holds exactly what has been enqueued and not dequeued,
in order. -/
theorem vacuum_safe (hm : ∀ n, malloc n = true) (initialSize maxSize : UInt64) (acts : List (Act α))
    (hstays : ∀ s ∈ reached (actStep malloc) (Shared.start initialSize maxSize) acts,
      s.queue.allocSize.toNat * 16 < 2 ^ 64)
    (hharmless : ∀ p ∈ visits (actStep malloc) (Shared.start initialSize maxSize) acts,
      Harmless p.1 p.2) :
    (∃ s rs, runOps (actStep malloc) (Shared.start initialSize maxSize) acts = .ok (s, rs)) ∧
    ∀ s ∈ reached (actStep malloc) (Shared.start initialSize maxSize) acts, s.stage = .call →
      ∃ held, contents s.queue = held.map some ∧ s.enqueued = s.dequeued ++ held := by
  have hb := hstays _ (mem_reached_self _ _)
  rw [Shared.start_queue] at hb
  have hinit : Accounted (Shared.start initialSize maxSize : Shared α) :=
    ⟨[], initialQueue_represents hb, rfl⟩
  have henv : ∀ p ∈ visits (actStep malloc) (Shared.start initialSize maxSize) acts,
      p.1.queue.allocSize.toNat * 16 < 2 ^ 64 ∧ Harmless p.1 p.2 :=
    fun p hp => ⟨hstays _ (visits_mem_reached hp), hharmless p hp⟩
  constructor
  · obtain ⟨s, rs, hrun, _⟩ := runOps_simulates (fun _ _ => ((), ())) (fun _ s _ => Accounted s)
      (fun _ _ => True) (fun s a => s.queue.allocSize.toNat * 16 < 2 ^ 64 ∧ Harmless s a)
      (fun a _ s _ hacc hok => by
        obtain ⟨s', hs, hacc'⟩ := actStep_accounted hm hok.1 hacc hok.2
        exact ⟨s', (), hs, hacc', trivial⟩)
      acts _ () hinit henv
    exact ⟨s, rs, hrun⟩
  · intro s hs hcall
    obtain ⟨_, l, hholding, hsum⟩ := forall_reached (fun _ s => Accounted s)
      (fun s a => s.queue.allocSize.toNat * 16 < 2 ^ 64 ∧ Harmless s a)
      (fun a _ s s' r hacc hok hstep => by
        obtain ⟨t, ht, hacc'⟩ := actStep_accounted hm hok.1 hacc hok.2
        rw [hstep] at ht
        cases ht
        exact hacc')
      acts _ hinit henv s hs
    have hrep : Represents s.queue l := by simpa only [Holding, hcall] using hholding
    exact ⟨l, hrep.contents, hsum⟩

/-- Three items, a dequeue, and a vacuum with an enqueue before the size is read and another one
when `rear` has been moved down. -/
theorem vacuum_safe_early :
    ∃ s rs, runOps (actStep fun _ => true) (Shared.start 8 0)
        ([.enqueue (some 1), .enqueue (some 2), .dequeue, .vacuum, .vacuum, .vacuum,
          .enqueue (some 3), .vacuum, .vacuum, .vacuum, .enqueue (some 4), .vacuum]) =
      .ok (s, rs) :=
  (vacuum_safe (fun _ => rfl : ∀ n, (fun _ : Nat => true) n = true) 8 0 _ (by decide +kernel)
    (by decide +kernel)).1

/-- **An item is lost and another one doubled.** 1, 2 and 3 are enqueued and 1 dequeued; when the
vacuum has read the size, 4 is enqueued. The queue is left with 2, 3 and 3. -/
theorem vacuum_loses :
    ¬ ∀ (acts : List (Act Nat)), ∀ s ∈ reached (actStep fun _ => true) (Shared.start 8 0) acts,
      s.stage = .call →
        ∃ held, contents s.queue = held.map some ∧ s.enqueued = s.dequeued ++ held := by
  intro h
  let acts : List (Act Nat) := [.enqueue (some 1), .enqueue (some 2), .enqueue (some 3), .dequeue,
    .vacuum, .vacuum, .vacuum, .vacuum, .enqueue (some 4), .vacuum, .vacuum, .vacuum]
  obtain ⟨s, hs, hstate⟩ := List.any_eq_true.mp (by decide +kernel :
    ((reached (actStep fun _ => true) (Shared.start 8 0) acts).any fun s => decide
      (s.stage = .call ∧ s.enqueued = [some 1, some 2, some 3, some 4] ∧ s.dequeued = [some 1] ∧
        contents s.queue = [some (some 2), some (some 3), some (some 3)])) = true)
  obtain ⟨hcall, henq, hdeq, hcontents⟩ := of_decide_eq_true hstate
  obtain ⟨held, hheld, hsum⟩ := h acts s hs hcall
  rw [henq, hdeq] at hsum
  have hsum : [some 1] ++ [some 2, some 3, some 4] = [some 1] ++ held := hsum
  obtain rfl := List.append_cancel_left hsum
  rw [hcontents] at hheld
  simp at hheld

end Threads

end Mikelibc.Queue
