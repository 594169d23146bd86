import Mikelibc.Base64.Code

/-! # The tool `mb64`

`main` of `mb64.c`. What comes from outside is given beforehand: whether `fopen`
succeeds, what each `read` returns, and what the array `buffer` holds before the first
read, for it is not initialized. What is printed is kept also if the program ends in
undefined behaviour later. Debug messages are left out. -/
namespace Mikelibc.Mb64
open CSem Base64

def bufsize : Nat := 1024

abbrev Piece := { bytes : List UInt8 // 1 ≤ bytes.length ∧ bytes.length ≤ bufsize }

/-- What a `read` returns: bytes, 0, or -1 with the text of the error. -/
inductive ReadResult where
  | bytes (piece : Piece)
  | zero
  | failed (error : String)

abbrev Buffer := { bytes : List UInt8 // bytes.length = bufsize }

/-- `read` always writes to the start of the buffer. -/
def Buffer.fill (buffer : Buffer) (piece : Piece) : Buffer :=
  ⟨piece.1 ++ buffer.1.drop piece.1.length, by
    rw [List.length_append, List.length_drop, buffer.2]
    exact Nat.add_sub_cancel' piece.2.2⟩

/-! ## Reading -/

structure ReadVars where
  buffer : Buffer
  inputSize : Int
  done : Bool
  stderr : List String

def ssizeMax : Int := 9223372036854775807

/-- Addition of `ssize_t` values: overflow is undefined. -/
def ssizeAdd (a b : Int) : Outcome Int := do
  Outcome.require (-ssizeMax - 1 ≤ a + b ∧ a + b ≤ ssizeMax)
  return a + b

/-- One round of the loop; `bytes` is what `read` returns. -/
def readRound (result : ReadResult) (v : ReadVars) : Outcome ReadVars :=
  match result with
  | .bytes piece => do
    let inputSize ← ssizeAdd v.inputSize piece.1.length
    return { v with buffer := v.buffer.fill piece, inputSize := inputSize }
  | .zero => do
    let inputSize ← ssizeAdd v.inputSize 0
    return { v with inputSize := inputSize, done := true }
  | .failed error => do
    let inputSize ← ssizeAdd v.inputSize (-1)
    return { v with
      inputSize := inputSize
      done := true
      stderr := v.stderr ++ ["read error: " ++ error ++ "\n"] }

/-- The loop, `while (! done)`: a round for each `read`, and no end without one. -/
def readLoop : List ReadResult → ReadVars → Outcome ReadVars
  | [], v => if v.done then return v else .hang
  | result :: results, v =>
    if v.done then return v
    else do
      let v ← readRound result v
      readLoop results v

/-! ## The program -/

structure Options where
  encode : Bool
  test : Bool
  input : Option String

/-- The loop over `argv`, the name of the program included. -/
def parseArgs (argv : List String) : Options :=
  argv.foldl (fun o arg =>
    if arg = "-d" then { o with encode := false }
    else if arg = "-t" then { o with test := true }
    else { o with input := some arg }) ⟨true, false, none⟩

/-- No input is named, or it is `-`. -/
def Options.fromStdin (o : Options) : Prop := o.input = none ∨ o.input = some "-"

instance (o : Options) : Decidable o.fromStdin := inferInstanceAs (Decidable (_ ∨ _))

/-- What the program has printed, and how it ended: with an exit status, or not. -/
structure Ended where
  stdout : List (List UInt8)
  stderr : List String
  status : Outcome Nat

/-- Go on with the value; without one this is the end. -/
def Ended.after {α : Type} (stdout : List (List UInt8)) (stderr : List String) (x : Outcome α)
    (f : α → Ended) : Ended :=
  match x with
  | .ok a => f a
  | .abort => ⟨stdout, stderr, .abort⟩
  | .fault => ⟨stdout, stderr, .fault⟩
  | .hang => ⟨stdout, stderr, .hang⟩

def line (s : String) : List UInt8 := s.toUTF8.toList

def printfString (s : CString) : List UInt8 := s.chars ++ line "\n"

/-- What `-t` adds. The decoded bytes are printed as a string, so they have to be one. -/
def decodeAgain (malloc : Nat → Bool) (b64string : CString) (v : ReadVars)
    (stdout : List (List UInt8)) : Ended :=
  let decoded := do
    match ← mbase64Decode malloc b64string with
    | none => .fault
    | some (output, outlen) => return (← output.cstring, outlen)
  Ended.after stdout v.stderr decoded fun (text, outlen) =>
    { stdout := stdout ++ [printfString text,
        line ("input size: " ++ toString v.inputSize ++ "\n"),
        line ("output size: " ++ toString (Int.bmod outlen.toNat (2 ^ 64)) ++ "\n")]
      stderr := v.stderr ++
        if toSize v.inputSize ≠ outlen then ["ERROR: sizes do not match\n"] else []
      status := .ok 0 }

/-- What is encoded: `mbase64_encode(buffer, input_size)`, as the string that is printed. -/
def encodeInput (malloc : Nat → Bool) (v : ReadVars) : Outcome CString := do
  let b64string ← mbase64Encode malloc v.buffer.1 (toSize v.inputSize)
  b64string.cstring

def main (malloc : Nat → Bool) (argv : List String) (fopen : Except String Unit) (buffer : Buffer)
    (reads : List ReadResult) : Ended :=
  if argv.length < 2 then
    { stdout := []
      stderr := ["Usage: mb64 [-d] <input|->\n", "    [-d] decode (encode is default)\n"]
      status := .ok 1 }
  else
    let o := parseArgs argv
    match if o.fromStdin then .ok () else fopen with
    | .error e => ⟨[], ["input file: " ++ e ++ "\n"], .ok 1⟩
    | .ok _ =>
      Ended.after [] [] (readLoop reads ⟨buffer, 0, false, []⟩) fun v =>
        if o.encode then
          Ended.after [] v.stderr (encodeInput malloc v) fun b64string =>
            if o.test then decodeAgain malloc b64string v [printfString b64string]
            else ⟨[printfString b64string], v.stderr, .ok 0⟩
        else ⟨[], v.stderr, .ok 0⟩

end Mikelibc.Mb64
