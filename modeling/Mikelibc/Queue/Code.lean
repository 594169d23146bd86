import Mikelibc.Lib.Memory

/-! # The queue of `madt.c`

`mqueue_t` and its operations, statement by statement. The part of enqueue and
dequeue that follows the size guard is the same in both builds and is a function
of its own (`enqueueLocked`, `dequeueLocked`); the guards of the build without
threads are here, those of the threaded build in `Queue.Threads`. `description`
is left out: only debug messages read it. `malloc n` says whether a request for
`n` bytes is granted (by `malloc` and `realloc` alike). -/
namespace Mikelibc.Queue
open CSem

/-- A `void *`: `none` is `NULL`. -/
abbrev VoidPtr (α : Type) := Option α

def ptrSize : UInt64 := 8

/-- The dequeues made before a vacuum. -/
def gcCount : UInt64 := 100

structure Mqueue (α : Type) where
  data : Block (VoidPtr α) 8
  front : UInt64
  rear : UInt64
  maxSize : UInt64
  gcRun : UInt64
  allocSize : UInt64

variable {α : Type} (malloc : Nat → Bool)

/-- `mqueue_size_int`: an empty queue has `rear + 1 = front`, at first by wrapping around. -/
def mqueueSizeInt (q : Mqueue α) : UInt64 := q.rear + 1 - q.front

def mqueueSize (q : Mqueue α) : UInt64 := mqueueSizeInt q

def mqueueInit (initialSize maxSize : UInt64) : Outcome (Mqueue α) := do
  let initialSize := if initialSize < 1 then 1 else initialSize
  let dataSize := initialSize * ptrSize
  Outcome.assert (malloc dataSize.toNat)
  return {
    data := Block.alloc dataSize.toNat
    front := 0
    rear := -1
    maxSize := maxSize
    gcRun := gcCount
    allocSize := initialSize }

/-- `if (queue->rear == queue->alloc_size) { ... }`: double the array. -/
def grow (q : Mqueue α) : Outcome (Mqueue α) :=
  if q.rear = q.allocSize then do
    let dataSize := q.allocSize * ptrSize
    Outcome.assert (malloc (dataSize * 2).toNat)
    return { q with data := q.data.realloc (dataSize * 2).toNat, allocSize := q.allocSize * 2 }
  else return q

/-- `mqueue_enqueue` from `queue->rear++` to the size it returns. -/
def enqueueLocked (q : Mqueue α) (item : VoidPtr α) : Outcome (Mqueue α × UInt64) := do
  let q ← grow malloc { q with rear := q.rear + 1 }
  let data ← q.data.store q.rear.toNat item
  let q := { q with data := data }
  return (q, mqueueSizeInt q)

def mqueueVacuum (q : Mqueue α) : Outcome (Mqueue α) :=
  if q.front = 0 then return q else do
    let bytes2copy := ptrSize * mqueueSizeInt q
    let data ← q.data.memmove 0 q.front.toNat (bytes2copy.toNat / 8)
    return { q with data := data, rear := q.rear - q.front, front := 0 }

/-- `if (queue->gc_run == 0) { ... }`: the automatic vacuum. -/
def housekeeping (q : Mqueue α) : Outcome (Mqueue α) :=
  if q.gcRun = 0 then do
    let q ← mqueueVacuum q
    return { q with gcRun := gcCount }
  else return q

/-- `mqueue_dequeue` from the read of the item on. -/
def dequeueLocked (q : Mqueue α) : Outcome (Mqueue α × VoidPtr α) := do
  let item ← q.data.load q.front.toNat
  let q ← housekeeping { q with front := q.front + 1, gcRun := q.gcRun - 1 }
  return (q, item)

/-- The guard of `mqueue_enqueue`: the queue has a maximum and is at it. -/
def AtMax (q : Mqueue α) : Prop := q.maxSize > 0 ∧ mqueueSizeInt q = q.maxSize

/-- The guard of `mqueue_dequeue`. -/
def IsEmpty (q : Mqueue α) : Prop := mqueueSizeInt q = 0

instance (q : Mqueue α) : Decidable (AtMax q) := inferInstanceAs (Decidable (_ ∧ _))
instance (q : Mqueue α) : Decidable (IsEmpty q) := inferInstanceAs (Decidable (_ = _))

/-- `mqueue_enqueue`, built without threads. -/
def mqueueEnqueue (q : Mqueue α) (item : VoidPtr α) : Outcome (Mqueue α × UInt64) :=
  if AtMax q then return (q, -1) else enqueueLocked malloc q item

/-- `mqueue_dequeue`, built without threads. -/
def mqueueDequeue (q : Mqueue α) : Outcome (Mqueue α × VoidPtr α) :=
  if IsEmpty q then return (q, none) else dequeueLocked q

/-! ## Calls on one queue -/

inductive Op (α : Type) where
  | enqueue (item : VoidPtr α)
  | dequeue
  | size
  | vacuum
  deriving DecidableEq

inductive Ret (α : Type) where
  | count (n : UInt64)
  | item (p : VoidPtr α)
  | done
  deriving DecidableEq

def step (q : Mqueue α) : Op α → Outcome (Mqueue α × Ret α)
  | .enqueue item => do let (q, n) ← mqueueEnqueue malloc q item; return (q, .count n)
  | .dequeue => do let (q, p) ← mqueueDequeue q; return (q, .item p)
  | .size => return (q, .count (mqueueSize q))
  | .vacuum => do let q ← mqueueVacuum q; return (q, .done)

/-- The slots of `data` a call reads: the one a dequeue returns, and those the
`memmove` of a vacuum copies. -/
def slotsRead (q : Mqueue α) : Op α → List Nat
  | .enqueue _ | .size => []
  | .dequeue =>
    if IsEmpty q then [] else
      q.front.toNat ::
        if q.gcRun - 1 = 0 then List.range' (q.front.toNat + 1) ((mqueueSizeInt q).toNat - 1) else []
  | .vacuum => if q.front = 0 then [] else List.range' q.front.toNat (mqueueSizeInt q).toNat

end Mikelibc.Queue
