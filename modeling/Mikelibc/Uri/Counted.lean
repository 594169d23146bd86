import Mikelibc.Uri.Strings

/-! # `uriencode` and `uridecode` by length

What the two functions return is no string, but `*out_length` says how long it is. A caller
that goes by it, and puts a terminator of its own behind what it passes on, gets everything
back that fits into `CURL_MAX_READ_SIZE` (`uri_counted_iff`). -/
namespace Mikelibc.Uri
open CSem

/-- The call returns a block of just these characters, and their number. -/
def Returns (r : Outcome (Option (Block UInt8 1) × Int)) (cs : List UInt8) : Prop :=
  ∃ buffer, r = .ok (some buffer, (cs.length : Int)) ∧ buffer.bytes = cs.length ∧ buffer.Holds 0 cs

def terminated (cs : List UInt8) : Block UInt8 1 :=
  (Block.alloc (cs.length + 1)).write 0 (cs ++ [0])

/-- `uriencode` returns some characters, and of a string of these `uridecode` returns the ones of
`s` again. -/
def CountedRoundTrip (curl : Curl) (malloc malloc' : Nat → Option (Nat → UInt8)) (s : CString) :
    Prop :=
  ∃ encoded, Returns (uriencode curl malloc s) encoded ∧
    Returns (uridecode curl malloc' (terminated encoded)) s.chars

variable {curl : Curl} {malloc malloc' : Nat → Option (Nat → UInt8)} {s : CString}

theorem terminated_cstring (s : CString) : (terminated s.chars).cstring = .ok s :=
  Block.cstring_of s (Block.holds_write _ 0 _) (Nat.lt_succ_self _)

/-- libcurl's string is copied whole if it is not longer than what is asked for. -/
theorem copyOut_returns {maxOutput : UInt64} (hmax : maxOutput.toNat ≤ intMax)
    (hm : ∀ n, malloc n ≠ none) (hs : s.chars.length ≤ maxOutput.toNat) :
    Returns (copyOut malloc s maxOutput) s.chars := by
  obtain ⟨contents, hcontents⟩ := Option.ne_none_iff_exists'.mp (hm s.chars.length)
  rw [copyOut_eq hmax, Nat.min_eq_left hs, List.take_of_length_le hs, hcontents]
  exact ⟨_, rfl, rfl, Block.holds_write _ 0 _⟩

/-- No more than what is asked for is copied. -/
theorem copyOut_returns_le {maxOutput : UInt64} {cs : List UInt8} (hmax : maxOutput.toNat ≤ intMax)
    (h : Returns (copyOut malloc s maxOutput) cs) : cs.length ≤ maxOutput.toNat := by
  obtain ⟨buffer, hbuffer, _⟩ := h
  rw [copyOut_eq hmax] at hbuffer
  have hlength := (Prod.mk.inj (Outcome.ok.inj hbuffer)).2
  omega

/-- **A caller that goes by the length** gets back exactly the strings that are not longer than
`CURL_MAX_READ_SIZE`: no encoding is ever too long for `uriencode`. -/
theorem uri_counted_iff (hcurl : Contract curl) (hm : ∀ n, malloc n ≠ none)
    (hm' : ∀ n, malloc' n ≠ none) (s : CString) :
    CountedRoundTrip curl malloc malloc' s ↔ s.chars.length ≤ curlMaxReadSize.toNat := by
  constructor
  · rintro ⟨encoded, _, hdecoded⟩
    obtain ⟨buffer, hrun, hrest⟩ := hdecoded
    obtain ⟨input, hinput, hrun'⟩ := Outcome.bind_eq_ok.mp hrun
    split at hrun'
    · cases hrun'
    · exact copyOut_returns_le (by decide) ⟨buffer, hrun', hrest⟩
  · intro hs
    have hlength := length_percentEncode s.chars
    have hthree : (curlMaxReadSize * 3).toNat = 3 * curlMaxReadSize.toNat := by decide
    have hsize : curlMaxReadSize.toNat = 10485760 := by decide
    let e : CString := ⟨percentEncode s.chars, zero_not_mem_percentEncode _, by omega⟩
    refine ⟨e.chars, ?_, ?_⟩
    · rw [uriencode, hcurl.escape s e rfl]
      exact copyOut_returns (by decide) hm (by rw [hthree]; simp only [e]; omega)
    · rw [uridecode, terminated_cstring, Outcome.ok_bind, hcurl.unescape s e rfl]
      exact copyOut_returns (by decide) hm' hs

theorem uri_counted_test : CountedRoundTrip percentCurl (fun _ => some fun _ => 7)
    (fun _ => some fun _ => 9) ⟨[97, 32, 98], by decide, by decide⟩ :=
  (uri_counted_iff contract_percentCurl (fun _ => Option.some_ne_none _)
    (fun _ => Option.some_ne_none _) ⟨[97, 32, 98], by decide, by decide⟩).mpr (by decide)

end Mikelibc.Uri
