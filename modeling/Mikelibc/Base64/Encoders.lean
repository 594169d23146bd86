import Mikelibc.Base64.Grammar
import Mikelibc.Base64.Openssl
import Mikelibc.Base64.Reference
import Mikelibc.Base64.Sizes

/-! # The other encoder

`base64_encode_openssl` of `mutil.c` leaves the groups to `EVP_EncodeBlock`, which is given. Where
`malloc` refuses, one encoder fails its assertion and the other one writes to `NULL`; where an
`int` has no room for the size, both are lost. Elsewhere they return the same string, and what one
module encodes the other decodes. Log messages are left out. -/
namespace Mikelibc.Base64
open CSem

/-! ## The code -/

/-- `base64_encode_openssl`. `EVP_EncodeBlock` gets the size as an `int`, and reads nothing if it
is negative; it writes the characters with a terminator, and returns their number or, which is
`none`, something negative. -/
def base64EncodeOpenssl (encodeBlock : List UInt8 → Option (List UInt8)) (malloc : Nat → Bool)
    (data : List UInt8) (inputSize : UInt64) : Outcome (Option (Block UInt8 1)) := do
  let b64stringMem := toInt (4 * ((inputSize + 2) / 3))
  let bytes := (toSize (b64stringMem + 1)).toNat
  let b64string := if malloc bytes then some (Block.alloc bytes) else none
  Outcome.require ((toInt inputSize).toNat ≤ data.length)
  match encodeBlock (data.take (toInt inputSize).toNat) with
  | none => return none
  | some chars => writeTo b64string (chars ++ [0])

/-- What `EVP_EncodeBlock` does: the encoding of RFC 4648. -/
def EncodesRfc (encodeBlock : List UInt8 → Option (List UInt8)) : Prop :=
  ∀ data, encodeBlock data = some (rfcEncode data)

/-! ## The two encoders -/

variable {malloc : Nat → Bool} {encodeBlock decodeBlock : List UInt8 → Option (List UInt8)}
  {data : List UInt8} {n : UInt64}

theorem encodeRequest_eq (hn : n.toNat = data.length)
    (hfits : 4 * ((data.length + 2) / 3) ≤ intMax) :
    encodeRequest n = (encodeList data).length + 1 := by
  have hmax : data.length + 3 ≤ intMax := by unfold intMax at hfits ⊢; omega
  have hsize : (4 * ((n + 2) / 3)).toNat = (encodeList data).length := by
    unfold intMax at hfits hmax
    rw [encodeList_length, UInt64.toNat_mul, UInt64.toNat_div, UInt64.toNat_add, hn,
      show (2 : UInt64).toNat = 2 from rfl, show (3 : UInt64).toNat = 3 from rfl,
      show (4 : UInt64).toNat = 4 from rfl]
    omega
  have hlen := encodeList_length data
  rw [encodeRequest, toInt_of_le (by omega), hsize]
  exact_mod_cast toSize_natCast (n := (encodeList data).length + 1)
    (by unfold intMax at hfits; omega)

theorem base64EncodeOpenssl_eq (hencode : EncodesRfc encodeBlock)
    (hm : malloc (encodeRequest n) = true) (hn : n.toNat = data.length)
    (hfits : 4 * ((data.length + 2) / 3) ≤ intMax) :
    base64EncodeOpenssl encodeBlock malloc data n =
      .ok (some ((Block.alloc ((encodeList data).length + 1)).write 0 (encodeList data ++ [0]))) := by
  have hrequest := encodeRequest_eq hn hfits
  rw [hrequest] at hm
  rw [encodeRequest] at hrequest
  have hint : toInt n = data.length := by
    rw [toInt_of_le (by unfold intMax at hfits ⊢; omega), hn]
  simp only [base64EncodeOpenssl, hrequest, hm, if_true, hint, Int.toNat_natCast, List.take_length,
    Outcome.require_of (Nat.le_refl _), Outcome.ok_bind, hencode data, rfcEncode_eq]
  simp [writeTo, Block.alloc, Outcome.require]

theorem mbase64Encode_granted (hm : malloc (encodeRequest n) = true) (hn : n.toNat = data.length)
    (hfits : 4 * ((data.length + 2) / 3) ≤ intMax) : mbase64Encode malloc data n =
      .ok ((Block.alloc ((encodeList data).length + 1)).write 0 (encodeList data ++ [0])) := by
  rw [mbase64Encode_malloc, if_pos hm, mbase64Encode_eq (fun _ => rfl) hn hfits]

/-- **The two encoders agree**, buffer for buffer, exactly if `malloc` grants the request and an
`int` has room for the number of characters. -/
theorem encoders_agree_iff (hencode : EncodesRfc encodeBlock) (hn : n.toNat = data.length) :
    (∃ output, mbase64Encode malloc data n = .ok output ∧
      base64EncodeOpenssl encodeBlock malloc data n = .ok (some output)) ↔
      malloc (encodeRequest n) = true ∧ 4 * ((data.length + 2) / 3) ≤ intMax := by
  constructor
  · rintro ⟨output, hplain, _⟩
    have hfits := mbase64Encode_fits hplain
    rw [mbase64Encode_malloc] at hplain
    refine ⟨?_, hn ▸ hfits⟩
    by_contra hm
    rw [if_neg hm] at hplain
    cases hplain
  · rintro ⟨hm, hfits⟩
    exact ⟨_, mbase64Encode_granted hm hn hfits, base64EncodeOpenssl_eq hencode hm hn hfits⟩

theorem encoders_agree_four : ∃ output, mbase64Encode (fun _ => true) [0, 255, 16, 0] 4 = .ok output ∧
    base64EncodeOpenssl (fun data => some (rfcEncode data)) (fun _ => true) [0, 255, 16, 0] 4 =
      .ok (some output) :=
  (encoders_agree_iff (fun _ => rfl) rfl).mpr ⟨rfl, by decide⟩

/-! ## There and back -/

/-- Which of the two modules does it. -/
inductive Codec where
  | mbase64
  | openssl
  deriving DecidableEq

def Codec.encode (codec : Codec) (encodeBlock : List UInt8 → Option (List UInt8))
    (malloc : Nat → Bool) (data : List UInt8) (n : UInt64) : Outcome (Option (Block UInt8 1)) :=
  match codec with
  | .mbase64 => do return some (← mbase64Encode malloc data n)
  | .openssl => base64EncodeOpenssl encodeBlock malloc data n

def Codec.decode (codec : Codec) (decodeBlock : List UInt8 → Option (List UInt8))
    (malloc : Nat → Bool) (s : CString) : Outcome (Option (Block UInt8 1 × UInt64)) :=
  match codec with
  | .mbase64 => mbase64Decode malloc s
  | .openssl => base64DecodeOpenssl decodeBlock malloc s

theorem Codec.encode_eq (codec : Codec) (hencode : EncodesRfc encodeBlock)
    (hm : ∀ n, malloc n = true) (hn : n.toNat = data.length)
    (hfits : 4 * ((data.length + 2) / 3) ≤ intMax) : codec.encode encodeBlock malloc data n =
      .ok (some ((Block.alloc ((encodeList data).length + 1)).write 0 (encodeList data ++ [0]))) := by
  cases codec with
  | mbase64 => rw [Codec.encode, mbase64Encode_granted (hm _) hn hfits]; rfl
  | openssl => exact base64EncodeOpenssl_eq hencode (hm _) hn hfits

theorem encodeList_alphabet (data : List UInt8) : ∀ c ∈ encodeList data, c ∈ b64Alphabet := by
  intro c hc
  obtain ⟨_, k, _, hletters, hpads⟩ := isBase64_encodeList data
  rw [← List.take_append_drop ((encodeList data).length - k) (encodeList data)] at hc
  obtain hc | hc := List.mem_append.mp hc
  · exact List.mem_append_left _ (hletters c hc)
  · rw [hpads c hc]
    decide

theorem decoded_size (hn : n.toNat = data.length) : toSize ((decodeList (encodeList data)).length -
    paddingCount (encodeList data)) = n := by
  have hsize : ((decodeList (encodeList data)).length : Int) - paddingCount (encodeList data) =
      data.length := by
    rw [decodeList_encodeList, paddingCount_encodeList, List.length_append, List.length_replicate]
    omega
  have := n.toNat_lt
  rw [hsize, ← UInt64.toNat_inj, toSize_natCast (by omega), hn]

theorem Codec.decode_eq (codec : Codec) (hdecode : DecodesGroups decodeBlock)
    (hm : ∀ n, malloc n = true) (hn : n.toNat = data.length) {s : CString}
    (hs : s.chars = encodeList data) (hfits : s.chars.length ≤ intMax) :
    codec.decode decodeBlock malloc s = .ok (some
      ((Block.alloc (decodeList (encodeList data)).length).write 0 (decodeList (encodeList data)),
        n)) := by
  have h4 : s.chars.length % 4 = 0 := by rw [hs, encodeList_length]; omega
  have hpads := paddingCount_le s.chars
  cases codec with
  | mbase64 =>
    have hsize : UInt64.ofNat (decodeList s.chars).length - UInt64.ofNat (paddingCount s.chars) =
        n := by
      rw [hs, decodeList_encodeList, paddingCount_encodeList, List.length_append,
        List.length_replicate, UInt64.ofNat_add, ← hn, UInt64.ofNat_toNat]
      exact UInt64.add_sub_cancel _ _
    rw [Codec.decode, mbase64Decode_eq hm h4 hfits, hsize, hs]
  | openssl =>
    have hletters : ∀ c ∈ s.chars, c ∈ b64Alphabet := by rw [hs]; exact encodeList_alphabet data
    rw [Codec.decode, base64DecodeOpenssl_eq hm hdecode hletters h4 hfits, hs, decoded_size hn]

/-- **What one module encodes, the other one decodes**: data of every length that an `int` has room
for come back, whichever of the two is taken for either way. There is room behind them in the buffer,
for a terminator say, exactly if they are not of whole groups. -/
theorem codecs_round_trip (encoder decoder : Codec) (hencode : EncodesRfc encodeBlock)
    (hdecode : DecodesGroups decodeBlock) (hm : ∀ n, malloc n = true) (hn : n.toNat = data.length)
    (hfits : 4 * ((data.length + 2) / 3) ≤ intMax) :
    ∃ output s decoded, encoder.encode encodeBlock malloc data n = .ok (some output) ∧
      output.cstring = .ok s ∧ decoder.decode decodeBlock malloc s = .ok (some (decoded, n)) ∧
      decoded.Holds 0 data ∧
      ((∃ text, decoded.store n.toNat 0 = .ok text ∧ text.Holds 0 (data ++ [0])) ↔
        data.length % 3 ≠ 0) := by
  have hlen := encodeList_length data
  let s : CString := ⟨encodeList data, encodeList_noNul data, by unfold intMax at hfits; omega⟩
  have hcstring := Block.cstring_of s (Block.holds_write
    (Block.alloc ((encodeList data).length + 1)) 0 (encodeList data ++ [0])) (Nat.lt_succ_self _)
  have hback := decodeList_encodeList data
  refine ⟨_, s, _, encoder.encode_eq hencode hm hn hfits, hcstring,
    decoder.decode_eq hdecode hm hn rfl (by simp only [s]; omega), ?_, ?_⟩
  · have hholds := Block.holds_write (Block.alloc (decodeList (encodeList data)).length :
      Block UInt8 1) 0 (decodeList (encodeList data))
    rw [hback] at hholds ⊢
    exact (Block.holds_append.mp hholds).1
  · rw [hback, hn]
    constructor
    · rintro ⟨text, hstore, _⟩ h3
      obtain ⟨hroom, _⟩ := Block.store_eq_ok.mp hstore
      simp only [Block.Fits, Block.write_bytes, Block.alloc, List.length_append,
        List.length_replicate, fill] at hroom
      omega
    · intro h3
      obtain ⟨k, hk⟩ : ∃ k, fill data.length = k + 1 :=
        ⟨fill data.length - 1, by unfold fill; omega⟩
      have hlast : data.length < (data ++ List.replicate (fill data.length) (0 : UInt8)).length := by
        simp [hk]
      have hset := Block.store_write_set (b := (Block.alloc (data ++ List.replicate
        (fill data.length) (0 : UInt8)).length : Block UInt8 1)) (k := 0) 0 hlast
        (by simp [Block.Fits, Block.alloc, hk])
      rw [Nat.zero_add] at hset
      refine ⟨_, hset, ?_⟩
      have hholds := Block.holds_write (Block.alloc (data ++ List.replicate
        (fill data.length) (0 : UInt8)).length : Block UInt8 1) 0
        ((data ++ List.replicate (fill data.length) 0).set data.length 0)
      have hsplit : (data ++ List.replicate (fill data.length) (0 : UInt8)).set data.length 0 =
          (data ++ [0]) ++ List.replicate k 0 := by
        rw [hk, List.replicate_succ]
        simp
      rw [hsplit] at hholds ⊢
      exact (Block.holds_append.mp hholds).1

/-- The octets of `"foo"` are one group and leave no room behind them. -/
theorem codecs_round_trip_foo :
    ∃ output s decoded, Codec.openssl.encode (fun data => some (rfcEncode data)) (fun _ => true)
        [102, 111, 111] 3 = .ok (some output) ∧ output.cstring = .ok s ∧
      Codec.mbase64.decode (fun cs => if cs.length % 4 = 0 then some (groupBytes cs) else none)
        (fun _ => true) s = .ok (some (decoded, 3)) ∧ decoded.Holds 0 [102, 111, 111] ∧
      ((∃ text, decoded.store (3 : UInt64).toNat 0 = .ok text ∧
        text.Holds 0 ([102, 111, 111] ++ [0])) ↔ [102, 111, 111].length % 3 ≠ 0) :=
  codecs_round_trip .openssl .mbase64 (fun _ => rfl) (fun _ _ => rfl) (fun _ => rfl) rfl (by decide)

end Mikelibc.Base64
