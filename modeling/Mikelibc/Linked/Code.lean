import Mikelibc.Lib.Chain

/-! # The linked-list macros of `madt.h`

A macro works on variables of its caller, so each is a function from these
variables (`ListVars`) to what it leaves in them; the ones it does not mention
keep their values, and the next macro finds them. `check` and `handle` are the
caller's. A loop runs for fewer rounds than `fuel` says. `length` is taken to be
of a type that has room for the number of nodes. -/
namespace Mikelibc.Linked
open CSem

/-- The caller's variables, and the memory its nodes are in. -/
structure ListVars (β : Type) where
  heap : Store β
  start : Ptr
  current : Ptr
  previous : Ptr
  freenode : Ptr
  length : Nat

variable {β η : Type}

/-- `current = current->next`. -/
def advance (v : ListVars β) : Outcome (ListVars β) := do
  let node ← v.heap.load v.current
  return { v with current := node.next }

def mlinkedListAdd (fuel : Nat) (newNode : Ptr) (v : ListVars β) : Outcome (ListVars β) :=
  if v.start = none then return { v with start := newNode, current := newNode }
  else do
    let v ← whileLoop (fun v => do
      let node ← v.heap.load v.current
      return decide (node.next ≠ none)) advance fuel { v with current := v.start }
    let heap ← v.heap.setNext v.current newNode
    return { v with heap := heap }

/-- The loop of `mlinked_list_find` goes on at a node that is not the one sought;
at that one it breaks. -/
def findCond (check : η → β → Bool) (handle : η) (v : ListVars β) : Outcome Bool :=
  if v.current = none then return false
  else do
    let node ← v.heap.load v.current
    return !check handle node.payload

def mlinkedListFind (check : η → β → Bool) (fuel : Nat) (handle : η) (v : ListVars β) :
    Outcome (ListVars β) :=
  if v.start = none then return { v with current := none }
  else whileLoop (findCond check handle) advance fuel { v with current := v.start }

/-- What `mlinked_list_remove` does at a node. -/
def removeAt (check : η → β → Bool) (handle : η) (v : ListVars β) : Outcome (ListVars β) := do
  let node ← v.heap.load v.current
  if check handle node.payload then
    if v.previous = none then
      return { v with start := node.next, previous := v.current, freenode := v.current }
    else do
      let heap ← v.heap.setNext v.previous node.next
      return { v with heap := heap, freenode := v.current }
  else return { v with previous := v.current }

def removeRound (check : η → β → Bool) (handle : η) (v : ListVars β) : Outcome (ListVars β) := do
  let v ← removeAt check handle v
  advance v

def removeLoop (check : η → β → Bool) (handle : η) : Nat → ListVars β → Outcome (ListVars β) :=
  whileLoop (fun v => return decide (v.current ≠ none)) (removeRound check handle)

def mlinkedListRemove (check : η → β → Bool) (fuel : Nat) (handle : η) (v : ListVars β) :
    Outcome (ListVars β) :=
  if v.start ≠ none then removeLoop check handle fuel { v with current := v.start } else return v

def mlinkedListLength (fuel : Nat) (v : ListVars β) : Outcome (ListVars β) :=
  whileLoop (fun v => return decide (v.current ≠ none))
    (fun v => advance { v with length := v.length + 1 }) fuel
      { v with length := 0, current := v.start }

/-! ## A caller that uses one set of variables throughout -/

inductive Op (β η : Type) where
  | add (node : Nat) (payload : β)
  | find (handle : η)
  | length
  | remove (handle : η)

inductive Ret where
  | found (current : Ptr)
  | length (n : Nat)
  | done
  deriving DecidableEq

/-- The variables before the first macro: no list, no cursors, no nodes. -/
def noList : ListVars β := ⟨fun _ => none, none, none, none, none, 0⟩

/-- One macro. The node added is the caller's, with `next == NULL`. -/
def step (check : η → β → Bool) (fuel : Nat) (v : ListVars β) : Op β η → Outcome (ListVars β × Ret)
  | .add node payload => do
    let v ← mlinkedListAdd fuel (some node)
      { v with heap := Function.update v.heap node (some ⟨payload, none⟩) }
    return (v, .done)
  | .find handle => do
    let v ← mlinkedListFind check fuel handle v
    return (v, .found v.current)
  | .length => do
    let v ← mlinkedListLength fuel v
    return (v, .length v.length)
  | .remove handle => do
    let v ← mlinkedListRemove check fuel handle v
    return (v, .done)

end Mikelibc.Linked
