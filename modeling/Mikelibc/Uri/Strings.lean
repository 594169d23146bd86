import Mikelibc.Lib.Digits
import Mikelibc.Lib.Memory

/-! # `uriencode` and `uridecode` of `mutil.c`

Both let libcurl do the work and copy its result into a block of just its length, where
there is no room for a terminator. What libcurl does, and what the blocks of `malloc`
happen to hold, is given. -/
namespace Mikelibc.Uri
open CSem

/-! ## The code -/

/-- `curl_easy_escape` and `curl_easy_unescape` on whole strings (length 0); `none` is `NULL`. -/
structure Curl where
  escape : CString → Option CString
  unescape : CString → Option CString

/-- `CURL_MAX_READ_SIZE`, which is usually this. -/
def curlMaxReadSize : UInt64 := 10 * 1024 * 1024

def strnlen (s : CString) (maxlen : UInt64) : UInt64 :=
  if s.strlen < maxlen then s.strlen else maxlen

/-- What both functions do with libcurl's string: a copy of at most so many characters, and
`*out_length`. -/
def copyOut (malloc : Nat → Option (Nat → UInt8)) (s : CString) (maxOutput : UInt64) :
    Outcome (Option (Block UInt8 1) × Int) := do
  let outLength := toInt (strnlen s maxOutput)
  let bytes := (toSize outLength).toNat
  match malloc bytes with
  | none => return (none, outLength)
  | some contents =>
    let outString ← (Block.fresh bytes contents).strncpy s 0 bytes
    return (some outString, outLength)

/-- `uriencode`. `strnlen` of a `NULL` from libcurl is undefined. -/
def uriencode (curl : Curl) (malloc : Nat → Option (Nat → UInt8)) (input : CString) :
    Outcome (Option (Block UInt8 1) × Int) :=
  match curl.escape input with
  | none => .fault
  | some encoded => copyOut malloc encoded (curlMaxReadSize * 3)

/-- `uridecode`, of a pointer to the start of a block. -/
def uridecode (curl : Curl) (malloc : Nat → Option (Nat → UInt8)) (input : Block UInt8 1) :
    Outcome (Option (Block UInt8 1) × Int) := do
  let input ← input.cstring
  match curl.unescape input with
  | none => .fault
  | some decoded => copyOut malloc decoded curlMaxReadSize

/-! ## What is asked of it -/

/-- libcurl writes and reads percent-encoding. -/
structure Contract (curl : Curl) : Prop where
  escape : ∀ s e : CString, e.chars = percentEncode s.chars → curl.escape s = some e
  unescape : ∀ s e : CString, e.chars = percentEncode s.chars → curl.unescape e = some s

/-- A buffer with a string in it, and its length. -/
def IsString (r : Option (Block UInt8 1) × Int) (s : CString) : Prop :=
  ∃ buffer, r.1 = some buffer ∧ buffer.cstring = .ok s ∧ r.2 = s.chars.length

/-- `uriencode` returns a string, and of that `uridecode` returns `s` again. The blocks of the two
calls may hold anything. -/
def RoundTrip (curl : Curl) (malloc malloc' : Nat → Option (Nat → UInt8)) (s : CString) : Prop :=
  ∃ buffer length encoded decoded, uriencode curl malloc s = .ok (some buffer, length) ∧
    IsString (some buffer, length) encoded ∧
    uridecode curl malloc' buffer = .ok decoded ∧ IsString decoded s

/-! ## What it does -/

variable {curl : Curl} {malloc malloc' : Nat → Option (Nat → UInt8)} {s : CString}
  {buffer : Block UInt8 1} {length : Int}

/-- A copy holds the characters that are copied, and nothing else. -/
theorem copyOut_eq {maxOutput : UInt64} (hmax : maxOutput.toNat ≤ intMax) :
    copyOut malloc s maxOutput = .ok
      ((malloc (min s.chars.length maxOutput.toNat)).map fun contents =>
        (Block.fresh (min s.chars.length maxOutput.toNat) contents).write 0
          (s.chars.take maxOutput.toNat),
      ((min s.chars.length maxOutput.toNat : Nat) : Int)) := by
  have hlen : (strnlen s maxOutput).toNat = min s.chars.length maxOutput.toNat := by
    unfold strnlen
    split
    · next h =>
      rw [UInt64.lt_iff_toNat_lt, s.strlen_toNat] at h
      rw [s.strlen_toNat, Nat.min_eq_left (Nat.le_of_lt h)]
    · next h =>
      rw [UInt64.lt_iff_toNat_lt, s.strlen_toNat] at h
      rw [Nat.min_eq_right (Nat.le_of_not_lt h)]
  have hint : toInt (strnlen s maxOutput) = (min s.chars.length maxOutput.toNat : Nat) := by
    rw [toInt_of_le (by omega), hlen]
  have hbytes : (toSize (min s.chars.length maxOutput.toNat : Nat)).toNat =
      min s.chars.length maxOutput.toNat := toSize_natCast (by unfold intMax at hmax; omega)
  unfold copyOut
  simp only [hint, hbytes]
  cases malloc (min s.chars.length maxOutput.toNat) with
  | none => rfl
  | some contents =>
    have hcopy := @Block.strncpy_of (Block.fresh (min s.chars.length maxOutput.toNat) contents) s
      (min s.chars.length maxOutput.toNat) 0 (by omega) (Nat.le_refl _)
    rw [List.drop_zero, Nat.min_comm, ← List.take_eq_take_min] at hcopy
    simp only [Nat.min_comm _ maxOutput.toNat, hcopy, Outcome.ok_bind, Option.map_some]
    rfl

/-- No character is a NUL, so there is none in the block. -/
theorem copyOut_unterminated {maxOutput : UInt64} (hmax : maxOutput.toNat ≤ intMax)
    (h : copyOut malloc s maxOutput = .ok (some buffer, length)) : buffer.cstring = .fault := by
  rw [copyOut_eq hmax] at h
  obtain ⟨hbuffer, _⟩ := Prod.mk.inj (Outcome.ok.inj h)
  obtain ⟨contents, _, rfl⟩ := Option.map_eq_some_iff.mp hbuffer
  refine Block.cstring_unterminated fun i hi => ?_
  have hlt : i < (s.chars.take maxOutput.toNat).length := by
    rw [List.length_take, Nat.min_comm]
    exact hi
  have hcell := Block.write_cell (k := 0)
    (Block.fresh (w := 1) (min s.chars.length maxOutput.toNat) contents) hlt
  rw [Nat.zero_add] at hcell
  rw [hcell]
  intro h0
  refine s.noNul ?_
  rw [← Option.some.inj h0]
  exact List.mem_of_mem_take (List.getElem_mem hlt)

theorem uriencode_unterminated (h : uriencode curl malloc s = .ok (some buffer, length)) :
    buffer.cstring = .fault := by
  unfold uriencode at h
  split at h
  · cases h
  · exact copyOut_unterminated (by decide) h

theorem uridecode_unterminated {input : Block UInt8 1}
    (h : uridecode curl malloc input = .ok (some buffer, length)) : buffer.cstring = .fault := by
  obtain ⟨s, _, h⟩ := Outcome.bind_eq_ok.mp h
  split at h
  · cases h
  · exact copyOut_unterminated (by decide) h

theorem not_roundTrip : ¬ RoundTrip curl malloc malloc' s := by
  rintro ⟨buffer, length, encoded, decoded, hencode, ⟨_, hsome, hstring, _⟩, _⟩
  cases hsome
  rw [uriencode_unterminated hencode] at hstring
  cases hstring

/-- **Neither function returns a string**, so that nothing is ever decoded again. -/
theorem uri_strings_never (curl : Curl) (malloc malloc' : Nat → Option (Nat → UInt8))
    (s : CString) :
    (∀ buffer length, uriencode curl malloc s = .ok (some buffer, length) →
      buffer.cstring = .fault) ∧
    (∀ input buffer length, uridecode curl malloc' input = .ok (some buffer, length) →
      buffer.cstring = .fault) ∧
    ¬ RoundTrip curl malloc malloc' s :=
  ⟨fun _ _ => uriencode_unterminated, fun _ _ _ => uridecode_unterminated, not_roundTrip⟩

def percentCurl : Curl where
  escape s := CString.ofChars (percentEncode s.chars)
  unescape s := CString.ofChars (percentDecode s.chars)

theorem contract_percentCurl : Contract percentCurl := by
  constructor
  · intro s e h
    simp only [percentCurl, ← h, CString.ofChars_chars]
  · intro s e h
    simp only [percentCurl, h, percentDecode_percentEncode, CString.ofChars_chars]

/-- `a b` is not decoded from what it is encoded as. -/
theorem uri_strings_test : ¬ ∀ curl, Contract curl →
    ∀ (contents contents' : Nat → Nat → UInt8) (s : CString),
      (percentEncode s.chars).length ≤ (curlMaxReadSize * 3).toNat →
      s.chars.length ≤ curlMaxReadSize.toNat →
      RoundTrip curl (fun n => some (contents n)) (fun n => some (contents' n)) s := fun h =>
  not_roundTrip (h percentCurl contract_percentCurl (fun _ _ => 0) (fun _ _ => 0)
    ⟨[97, 32, 98], by decide, by decide⟩ (by decide) (by decide))

end Mikelibc.Uri
