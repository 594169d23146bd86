import Mikelibc.Lib.Memory

/-! # The codec of `mbase64.c`

The two tables, the two conversions between three octets and four groups of six
bits, and the two loops. Operands of the bit operations are promoted to `int`
(`UInt32` here) and cut to eight bits where they are assigned. The counters `i`,
`j`, `k` are `int`: a step past `INT_MAX` is a fault, and so is every access
outside a block or past the end of a string. `malloc n` says whether a request
for `n` bytes is granted. -/
namespace Mikelibc.Base64
open CSem

def mask : UInt32 := 0x3F

/-- The 64 letters, in the order of their values. -/
def letters : List UInt8 :=
  ['A', 'B', 'C', 'D', 'E', 'F', 'G', 'H', 'I', 'J', 'K', 'L',
    'M', 'N', 'O', 'P', 'Q', 'R', 'S', 'T', 'U', 'V', 'W', 'X',
    'Y', 'Z', 'a', 'b', 'c', 'd', 'e', 'f', 'g', 'h', 'i', 'j',
    'k', 'l', 'm', 'n', 'o', 'p', 'q', 'r', 's', 't', 'u', 'v',
    'w', 'x', 'y', 'z', '0', '1', '2', '3', '4', '5', '6', '7',
    '8', '9', '+', '/'].map Char.toUInt8

def padChar : UInt8 := '='.toUInt8

def b64Alphabet : List UInt8 := letters ++ [padChar]

/-- The designated initializers of `b64_alphabet_reverse`. -/
def reverseEntries : List (Char × UInt32) :=
  [('A', 0), ('B', 1), ('C', 2), ('D', 3), ('E', 4), ('F', 5), ('G', 6), ('H', 7), ('I', 8),
    ('J', 9), ('K', 10), ('L', 11), ('M', 12), ('N', 13), ('O', 14), ('P', 15), ('Q', 16),
    ('R', 17), ('S', 18), ('T', 19), ('U', 20), ('V', 21), ('W', 22), ('X', 23), ('Y', 24),
    ('Z', 25), ('a', 26), ('b', 27), ('c', 28), ('d', 29), ('e', 30), ('f', 31), ('g', 32),
    ('h', 33), ('i', 34), ('j', 35), ('k', 36), ('l', 37), ('m', 38), ('n', 39), ('o', 40),
    ('p', 41), ('q', 42), ('r', 43), ('s', 44), ('t', 45), ('u', 46), ('v', 47), ('w', 48),
    ('x', 49), ('y', 50), ('z', 51), ('0', 52), ('1', 53), ('2', 54), ('3', 55), ('4', 56),
    ('5', 57), ('6', 58), ('7', 59), ('8', 60), ('9', 61), ('+', 62), ('/', 63)]

/-- `b64_alphabet_reverse`: an entry without an initializer is 0. -/
def b64AlphabetReverse (c : UInt8) : UInt32 :=
  ((reverseEntries.find? fun e => e.1.toUInt8 == c).map Prod.snd).getD 0

structure OrigOctets where
  one : UInt8
  two : UInt8
  three : UInt8
  deriving DecidableEq

structure B64Block where
  one : UInt8
  two : UInt8
  three : UInt8
  four : UInt8
  deriving DecidableEq

def convertFromB64 (b64 : B64Block) : OrigOctets :=
  let one := b64.one
  let one := (one.toUInt32 <<< 2).toUInt8
  let one := (one.toUInt32 ||| b64.two.toUInt32 >>> 4).toUInt8
  let two := (b64.two.toUInt32 <<< 4).toUInt8
  let two := (two.toUInt32 ||| b64.three.toUInt32 >>> 2).toUInt8
  let three := (b64.three.toUInt32 <<< 6).toUInt8
  let three := (three.toUInt32 ||| b64.four.toUInt32).toUInt8
  ⟨one, two, three⟩

def convertToB64 (orig : OrigOctets) : B64Block where
  one := (orig.one.toUInt32 >>> 2 &&& mask).toUInt8
  two := ((orig.one.toUInt32 <<< 4 ||| orig.two.toUInt32 >>> 4) &&& mask).toUInt8
  three := ((orig.two.toUInt32 <<< 2 ||| orig.three.toUInt32 >>> 6) &&& mask).toUInt8
  four := (orig.three.toUInt32 &&& mask).toUInt8

/-! ## Decoding -/

structure DecodeVars where
  output : Block UInt8 1
  i : Nat
  k : Nat

/-- `pb64[j] = b64_alphabet_reverse[b64string[i+j]]`; the test `c < 0` before it
is never true of an `unsigned char`. -/
def mapChar (b64string : CString) (i j : Nat) : Outcome UInt8 := do
  let c ← b64string.get (← intAdd i j)
  return (b64AlphabetReverse c).toUInt8

/-- One round of the loop: four characters in, three octets out. -/
def decodeRound (b64string : CString) (v : DecodeVars) : Outcome DecodeVars := do
  let one ← mapChar b64string v.i 0
  let two ← mapChar b64string v.i 1
  let three ← mapChar b64string v.i 2
  let four ← mapChar b64string v.i 3
  let orig := convertFromB64 ⟨one, two, three, four⟩
  let output ← v.output.store v.k orig.one
  let output ← output.store (← intAdd v.k 1) orig.two
  let output ← output.store (← intAdd v.k 2) orig.three
  return { output := output, i := ← intAdd v.i 4, k := ← intAdd v.k 3 }

/-- The padding, counted in the last two characters, each for itself. -/
def countPadding (b64string : CString) : Outcome UInt64 :=
  let inputSize := b64string.strlen
  if inputSize > 3 then do
    let last ← b64string.get (inputSize - 1).toNat
    let padding := if last = padChar then 1 else 0
    let secondLast ← b64string.get (inputSize - 2).toNat
    return if secondLast = padChar then padding + 1 else padding
  else return 0

def decodeLoop (b64string : CString) : Nat → DecodeVars → Outcome DecodeVars :=
  whileLoop (fun v => return decide (v.i < b64string.strlen.toNat)) (decodeRound b64string)

/-- `mbase64_decode`: the buffer and what it leaves in `*output_size`, or `NULL`. -/
def mbase64Decode (malloc : Nat → Bool) (b64string : CString) :
    Outcome (Option (Block UInt8 1 × UInt64)) := do
  let inputSize := b64string.strlen
  if inputSize % 4 ≠ 0 then
    return none
  else
    let outputBytes := toInt (3 * inputSize / 4)
    Outcome.assert (malloc (toSize outputBytes).toNat)
    let padding ← countPadding b64string
    let v ← decodeLoop b64string (inputSize.toNat + 1) {
      output := Block.alloc (toSize outputBytes).toNat
      i := 0
      k := 0 }
    return some (v.output, toSize v.k - padding)

/-! ## Encoding -/

structure EncodeVars where
  output : Block UInt8 1
  i : Nat
  j : Nat

/-- The next three octets, short ones filled up with zeros, and the padding. -/
def takeOctets (data : List UInt8) (inputSize : UInt64) (i : Nat) : Outcome (OrigOctets × Nat) := do
  let remaining := toInt (inputSize - UInt64.ofNat i)
  if remaining ≥ 3 then
    let one ← readAt data i
    let two ← readAt data (← intAdd i 1)
    let three ← readAt data (← intAdd i 2)
    return (⟨one, two, three⟩, 0)
  else if remaining = 2 then
    let one ← readAt data i
    let two ← readAt data (← intAdd i 1)
    return (⟨one, two, 0⟩, 1)
  else
    let one ← readAt data i
    return (⟨one, 0, 0⟩, 2)

/-- Overwrite the last characters of a block: `padding` of them become `'='`. -/
def putPadding (output : Block UInt8 1) (j padding : Nat) : Outcome (Block UInt8 1) := do
  if padding = 1 then
    output.store (← intAdd j 3) padChar
  else if padding = 2 then
    let output ← output.store (← intAdd j 2) padChar
    output.store (← intAdd j 3) padChar
  else return output

def encodeRound (data : List UInt8) (inputSize : UInt64) (v : EncodeVars) : Outcome EncodeVars := do
  let (orig, padding) ← takeOctets data inputSize v.i
  let b64 := convertToB64 orig
  let output ← v.output.store v.j (← readAt b64Alphabet b64.one.toNat)
  let output ← output.store (← intAdd v.j 1) (← readAt b64Alphabet b64.two.toNat)
  let output ← output.store (← intAdd v.j 2) (← readAt b64Alphabet b64.three.toNat)
  let output ← output.store (← intAdd v.j 3) (← readAt b64Alphabet b64.four.toNat)
  let output ← putPadding output v.j padding
  return { output := output, i := ← intAdd v.i 3, j := ← intAdd v.j 4 }

def encodeLoop (data : List UInt8) (inputSize : UInt64) : Nat → EncodeVars → Outcome EncodeVars :=
  whileLoop (fun v => return decide (v.i < inputSize.toNat)) (encodeRound data inputSize)

/-- `mbase64_encode`. `output_bytes` is a multiple of 4, so adding 1 stays an `int`. -/
def mbase64Encode (malloc : Nat → Bool) (data : List UInt8) (inputSize : UInt64) :
    Outcome (Block UInt8 1) := do
  let outputBytes := toInt (4 * ((inputSize + 2) / 3))
  Outcome.assert (malloc (toSize (outputBytes + 1)).toNat)
  let v ← encodeLoop data inputSize (inputSize.toNat + 1) {
    output := Block.alloc (toSize (outputBytes + 1)).toNat
    i := 0
    j := 0 }
  v.output.store v.j 0

end Mikelibc.Base64
