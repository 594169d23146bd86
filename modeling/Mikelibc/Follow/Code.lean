import Mathlib.Data.Set.Finite.Basic
import Mikelibc.Lib.Memory

/-! # `followlink` of `mutil.c`

The file system is given by what a pathname stands for and by the targets of the
symbolic links. `pathname` of the recursive call is an array on the stack that is
not initialized: what it holds is given for each depth. The size `bufsiz` is that of
the buffer, as the callers pass it. Debug messages are left out. -/
namespace Mikelibc.Follow
open CSem

def maxpath : Nat := 4096

/-- Files are numbered. A pathname, used from a directory, stands for a file in a directory, and a
link in its last place is not followed; if it does not, there is the text of the error. An
absolute pathname does so from everywhere. There are finitely many symbolic links. -/
structure FileSystem where
  cwd : Nat
  lookup : Nat → CString → Except String (Nat × Nat)
  target : Nat → Option CString
  links_finite : {file | (target file).isSome}.Finite
  lookup_absolute : ∀ d d' path, path.chars.head? = some '/'.toUInt8 → lookup d path = lookup d' path

/-- What a pathname stands for in the working directory. -/
def FileSystem.find (fs : FileSystem) (path : CString) : Except String (Nat × Nat) :=
  fs.lookup fs.cwd path

/-- `readlink`: the target, cut to the size of the buffer. -/
def FileSystem.readlink (fs : FileSystem) (path : CString) (bufsiz : Nat) :
    Except String (List UInt8) :=
  if bufsiz = 0 then .error "Invalid argument"
  else match fs.find path with
    | .error e => .error e
    | .ok (_, file) => match fs.target file with
      | some t => .ok (t.chars.take bufsiz)
      | none => .error "Invalid argument"

/-- `lstat`, as far as it is looked at: whether the file is a symbolic link. -/
def FileSystem.lstat (fs : FileSystem) (path : CString) : Except String Bool :=
  match fs.find path with
  | .error e => .error e
  | .ok (_, file) => .ok (fs.target file).isSome

/-- What an array of `MAXPATH` characters holds before it is written. -/
abbrev Garbage := { bytes : List UInt8 // bytes.length = maxpath }

def localArray (garbage : Garbage) : Block UInt8 1 := ⟨maxpath, fun i => garbage.1[i]?⟩

/-- `strncpy(pathname, buf, nbytes);` and `pathname` as the string that it is for the next call. -/
def copyName (garbage : Garbage) (buf : CString) (nbytes : Nat) : Outcome CString := do
  let pathname ← (localArray garbage).strncpy buf 0 nbytes
  pathname.cstring

/-- What the call returns, leaves in the buffer and prints. -/
structure Followed where
  value : Int
  buf : Block UInt8 1
  stderr : List String

/-- `followlink`, with at most `fuel` calls nested. -/
def followlink (fs : FileSystem) (stack : Nat → Garbage) :
    (fuel depth : Nat) → CString → Block UInt8 1 → Outcome Followed
  | 0, _, _, _ => .hang
  | fuel + 1, depth, pathname, buf =>
    match fs.readlink pathname buf.bytes with
    | .error _ => return ⟨-1, buf, []⟩
    | .ok bytes => do
      let nbytes := bytes.length
      let buf ← (buf.write 0 bytes).store nbytes 0
      let link ← buf.cstring
      match fs.lstat link with
      | .error e => return ⟨-1, buf, ["stat: " ++ e ++ "\n"]⟩
      | .ok true => do
        let pathname ← copyName (stack depth) link nbytes
        followlink fs stack fuel (depth + 1) pathname buf
      | .ok false => return ⟨nbytes, buf, []⟩

end Mikelibc.Follow
