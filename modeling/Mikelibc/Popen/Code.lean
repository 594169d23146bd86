import Mikelibc.Lib.Descriptors

/-! # A program with its three streams on pipes, as in `mutil.c`

`popenRWE` acts on the table of descriptors of the process; `fork` gives the child a
copy of it. Whether the system grants a pipe or a process is given beforehand. The
results of `close` and `dup` are not looked at. Debug messages are left out. -/
namespace Mikelibc.Popen
open CSem

variable {α : Type}

/-- What the system grants, apart from numbers for the descriptors. -/
structure Calls where
  pipe : Nat → Bool
  fork : Option { pid : Int // 0 < pid }

/-- The state of the process at the return, and the table of the child at `execvp`. -/
structure Result (α : Type) where
  result : Int
  rwepipe : Vector Int 3
  parent : Table (File α)
  child : Option (Table (File α))

def pipe (calls : Calls) (p : Nat) (t : Table (File α)) : Option (Ends × Table (File α)) :=
  if calls.pipe p then t.pipe p else none

/-- `close(n)` and `dup(fd)`, which is meant to get the number `n`. -/
def reopen (t : Table α) (n fd : Nat) : Table α :=
  let t := t.close n
  match t.dup fd with
  | some (_, t) => t
  | none => t

/-! ## The two sides -/

/-- What the child does before `execvp`. -/
def child (inn out err : Ends) (t : Table α) : Table α :=
  let t := t.close inn.write
  let t := t.close out.read
  let t := t.close err.read
  let t := reopen t 0 inn.read
  let t := reopen t 1 out.write
  reopen t 2 err.write

/-- What the parent does after `fork`. -/
def parent (inn out err : Ends) (t : Table α) : Table α :=
  ((t.close inn.read).close out.write).close err.write

/-! ## Errors -/

def errorIn (rwepipe : Vector Int 3) (t : Table (File α)) : Result α := ⟨-1, rwepipe, t, none⟩

def errorOut (rwepipe : Vector Int 3) (inn : Ends) (t : Table (File α)) : Result α :=
  errorIn rwepipe ((t.close inn.read).close inn.write)

def errorErr (rwepipe : Vector Int 3) (inn out : Ends) (t : Table (File α)) : Result α :=
  errorOut rwepipe inn ((t.close out.read).close out.write)

def errorFork (rwepipe : Vector Int 3) (inn out err : Ends) (t : Table (File α)) : Result α :=
  errorErr rwepipe inn out ((t.close err.read).close err.write)

def popenRWE (calls : Calls) (rwepipe : Vector Int 3) (t : Table α) : Result α :=
  match pipe calls 0 t.before with
  | none => errorIn rwepipe t.before
  | some (inn, t) => match pipe calls 1 t with
    | none => errorOut rwepipe inn t
    | some (out, t) => match pipe calls 2 t with
      | none => errorErr rwepipe inn out t
      | some (err, t) => match calls.fork with
        | none => errorFork rwepipe inn out err t
        | some pid =>
          ⟨pid, #v[(inn.write : Int), out.read, err.read], parent inn out err t,
            some (child inn out err t)⟩

end Mikelibc.Popen
