import Mikelibc.Bins.Listing
import Mikelibc.Split.Join

/-! # The directories of `PATH`, as `bins` goes through them

`main` copies the variable into a buffer, splits it at the colons and calls `find_bins` for each
piece. A variable that fills the buffer is not terminated there; a last directory with a name of
one character, such as `/`, is left out (`main_lists_path`). -/
namespace Mikelibc.Bins
open CSem Split

/-! ## The code -/

/-- `strncmp(s, t, n) == 0`, for a string `t` of `n` characters. -/
def startsWith (s : CString) (t : List UInt8) : Bool := s.chars.take t.length == t

def help : List UInt8 := ['-', 'h'].map Char.toUInt8
def fullPaths : List UInt8 := ['-', 'f'].map Char.toUInt8

def colon : UInt8 := ':'.toUInt8
def colonString : CString := ⟨[colon], by decide, by decide⟩

/-- The loop over the arguments: `full`, or `none` where the usage is printed. -/
def optionLoop : List CString → Int → Option Int
  | [], full => some full
  | arg :: args, full =>
    if startsWith arg help then none
    else if startsWith arg fullPaths then optionLoop args 1
    else optionLoop args full

def options (argv : List CString) : Option Int :=
  if argv.length > 1 then optionLoop argv 0 else some 0

/-- The loop over the pieces, from the one with number `i` on. -/
def walkPieces (sys : System) (full : Int) (pieces : Block Slot 8) :
    Nat → Nat → Printed → Outcome Printed
  | 0, _, _ => .hang
  | fuel + 1, i, p => do
    match ← pieces.load i with
    | none => return p
    | some piece =>
      let piece ← piece.cstring
      let q ← findBins sys (some piece) full
      walkPieces sys full pieces fuel (i + 1) ⟨p.stdout ++ q.stdout, p.stderr ++ q.stderr⟩

/-- `free_msplit`, from the slot with number `i` on: the strings that it frees, before it frees the
array. -/
def freeMsplit (splitString : Block Slot 8) : Nat → Nat → Outcome (List (Block UInt8 1))
  | 0, _ => .hang
  | fuel + 1, i => do
    match ← splitString.load i with
    | none => return []
    | some word =>
      let words ← freeMsplit splitString fuel (i + 1)
      return word :: words

structure Exit where
  status : Int
  printed : Printed

/-- `main`, with what happens to be in `path` and the value of `PATH`. -/
def main (malloc : Nat → Option Nat) (sys : System) (stack : Nat → UInt8) (argv : List CString)
    (getenv : Option CString) : Outcome Exit :=
  match options argv with
  | none => return ⟨1, [], ["Usage: bins [-h]\n"]⟩
  | some full =>
    match getenv with
    | none => .fault
    | some value => do
      let path ← (Block.fresh maxpath stack : Block UInt8 1).strncpy value 0 maxpath
      let path ← path.cstring
      let pieces ← msplit malloc path (some colonString)
      let printed ← walkPieces sys full pieces (pieces.bytes + 1) 0 ⟨[], []⟩
      let _ ← freeMsplit pieces (pieces.bytes + 1) 0
      return ⟨0, printed⟩

/-! ## The arguments -/

variable {sys : System} {full : Int} {array : Block Slot 8}

/-- The paths of all files of the directory fit into the buffer of `find_bins`. -/
def Fits (sys : System) (dir : CString) : Prop :=
  ∀ entry ∈ sys.entries dir, entry.IsFile → PathFits dir entry

instance (sys : System) (dir : CString) : Decidable (Fits sys dir) :=
  inferInstanceAs (Decidable (∀ entry ∈ sys.entries dir, entry.IsFile →
    (pathOf dir entry).length < maxpath))

end Mikelibc.Bins
