import Mikelibc.Crypt.Code

/-! # Ciphertext as a string

`encrypt_ssl` does not return a length, so its result can only be measured with `strlen`,
as the test does. That finds the ciphertext exactly when no byte of it is a NUL. -/
namespace Mikelibc.Crypt
open CSem

/-- Encryption and decryption never fail, keep the length, and undo each other. -/
structure StreamCipher {σ : Type} (cipher : Cipher σ) : Prop where
  encrypts : ∀ key iv p, (cipher.encrypt.run key iv p).2 = true ∧
    (cipher.encrypt.run key iv p).1.length = p.length
  decrypts : ∀ key iv c, (cipher.decrypt.run key iv c).2 = true ∧
    (cipher.decrypt.run key iv c).1.length = c.length
  inverse : ∀ key iv p, (cipher.decrypt.run key iv (cipher.encrypt.run key iv p).1).1 = p

/-- `decrypt_ssl(…, c, strlen(c))` of `c = encrypt_ssl(…, p, n)` is the string `p`. Of `c` only the
bytes before its terminator are read. -/
def Recovers {σ : Type} (aes256Cfb8 : Cipher σ) (cipherType : Option (Cipher σ))
    (malloc malloc' : Nat → Option (Nat → UInt8)) (key iv p : List UInt8) : Prop :=
  ∃ ciphertext c plaintext s,
    encryptSsl aes256Cfb8 malloc key iv cipherType p p.length = .ok (.ok ciphertext) ∧
    ciphertext.cstring = .ok c ∧
    decryptSsl aes256Cfb8 malloc' key iv cipherType c.chars (toInt c.strlen) = .ok (.ok plaintext) ∧
    plaintext.cstring = .ok s ∧ s.chars = p

variable {σ : Type} {evp : Evp σ} {texts : ErrorTexts} {malloc : Nat → Option (Nat → UInt8)}
  {key iv input : List UInt8} {out : Block UInt8 1}

/-- What a call that returns a buffer has written, in a block that was granted. -/
theorem cryptSsl_buffer (hmax : input.length ≤ intMax)
    (h : cryptSsl evp texts malloc key iv input input.length = .ok (.ok out)) :
    malloc (2 * input.length) ≠ none ∧ out.Holds 0 ((evp.run key iv input).1 ++ [0]) := by
  cases hm : malloc (2 * input.length) with
  | none =>
    rw [cryptSsl_refused hmax hm] at h
    cases h
  | some contents =>
    refine ⟨nofun, ?_⟩
    rcases @cryptSsl_eq σ evp texts malloc key iv input contents hmax hm with
      ⟨_, heq⟩ | ⟨_, text, heq⟩
    · rw [heq] at h
      split at h
      · cases h
        exact Block.holds_write _ _ _
      · cases h
    · rw [heq] at h
      split at h <;> cases h

/-- A call with enough room returns the string it has written, if it is one. -/
theorem cryptSsl_string {s : CString} (hmax : input.length ≤ intMax)
    (hm : malloc (2 * input.length) ≠ none) (hrun : evp.run key iv input = (s.chars, true))
    (hlen : s.chars.length = input.length) (hne : input ≠ []) :
    ∃ out, cryptSsl evp texts malloc key iv input input.length = .ok (.ok out) ∧
      out.cstring = .ok s := by
  obtain ⟨contents, hm⟩ := Option.ne_none_iff_exists'.mp hm
  have hpos := List.length_pos_iff.mpr hne
  rcases @cryptSsl_eq σ evp texts malloc key iv input contents hmax hm with
    ⟨_, heq⟩ | ⟨hfail, _⟩
  · rw [hrun] at heq
    rw [heq, if_pos (by simp only; omega)]
    refine ⟨_, rfl, Block.cstring_of s (Block.holds_write _ _ _) ?_⟩
    rw [Block.write_bytes, Block.fresh_bytes]
    omega
  · rw [hrun] at hfail
    cases hfail

/-- A plaintext that is recovered is as long as the string that its ciphertext is. -/
theorem Recovers.no_nul {aes256Cfb8 : Cipher σ} {cipherType : Option (Cipher σ)}
    {malloc malloc' : Nat → Option (Nat → UInt8)} {p : List UInt8}
    (hcipher : StreamCipher (cipherType.getD aes256Cfb8)) (hmax : p.length ≤ intMax)
    (h : Recovers aes256Cfb8 cipherType malloc malloc' key iv p) :
    malloc (2 * p.length) ≠ none ∧ malloc' (2 * p.length) ≠ none ∧
      0 ∉ ((cipherType.getD aes256Cfb8).encrypt.run key iv p).1 := by
  obtain ⟨ciphertext, c, plaintext, s, hencrypt, hc, hdecrypt, hs, rfl⟩ := h
  have hterminator : ∀ {cs : List UInt8}, (0 : UInt8) ∈ cs ++ [0] :=
    List.mem_append_right _ (List.mem_singleton.mpr rfl)
  obtain ⟨hm, hholds⟩ := cryptSsl_buffer hmax hencrypt
  have hle := Block.length_lt_of_holds hc hholds hterminator
  rw [List.length_append, (hcipher.encrypts key iv s.chars).2, List.length_singleton] at hle
  rw [CString.toInt_strlen (by omega)] at hdecrypt
  obtain ⟨hm', hholds'⟩ := cryptSsl_buffer (by omega) hdecrypt
  have hback := Block.length_lt_of_holds hs hholds' hterminator
  rw [List.length_append, (hcipher.decrypts key iv c.chars).2, List.length_singleton] at hback
  have heq : c.chars.length = s.chars.length := by omega
  refine ⟨hm, heq ▸ hm', fun h0 => ?_⟩
  have hlt := Block.length_lt_of_holds hc (Block.holds_append.mp hholds).1 h0
  rw [(hcipher.encrypts key iv s.chars).2] at hlt
  omega

/-- **When decryption recovers the plaintext through the string**: exactly when both requests for
memory are granted and the encryption of `p` has no NUL in it. -/
theorem decrypt_recovers_iff {σ : Type} (aes256Cfb8 : Cipher σ) (cipherType : Option (Cipher σ))
    (malloc malloc' : Nat → Option (Nat → UInt8)) (key iv p : List UInt8)
    (hcipher : StreamCipher (cipherType.getD aes256Cfb8)) (hne : p ≠ []) (hp : 0 ∉ p)
    (hmax : p.length ≤ intMax) :
    Recovers aes256Cfb8 cipherType malloc malloc' key iv p ↔
      malloc (2 * p.length) ≠ none ∧ malloc' (2 * p.length) ≠ none ∧
        0 ∉ ((cipherType.getD aes256Cfb8).encrypt.run key iv p).1 := by
  refine ⟨Recovers.no_nul hcipher hmax, ?_⟩
  rintro ⟨hm, hm', h0⟩
  obtain ⟨hok, hlen⟩ := hcipher.encrypts key iv p
  let c : CString := ⟨((cipherType.getD aes256Cfb8).encrypt.run key iv p).1, h0,
    by rw [hlen]; unfold intMax at hmax; omega⟩
  have hclen : c.chars.length = p.length := hlen
  obtain ⟨ciphertext, hencrypt, hc⟩ := cryptSsl_string (s := c) hmax hm (Prod.ext rfl hok) hlen hne
  let s : CString := ⟨p, hp, by unfold intMax at hmax; omega⟩
  have hrun : (cipherType.getD aes256Cfb8).decrypt.run key iv c.chars = (s.chars, true) :=
    Prod.ext (hcipher.inverse key iv p) (hcipher.decrypts key iv c.chars).1
  obtain ⟨plaintext, hdecrypt, hs⟩ := cryptSsl_string (s := s) (by omega)
    (by rw [hclen]; exact hm') hrun hclen.symm
    (fun hnil => hne (List.length_eq_zero_iff.mp (by rw [← hclen, hnil]; rfl)))
  refine ⟨ciphertext, c, plaintext, s, hencrypt, hc, ?_, hs, rfl⟩
  rw [CString.toInt_strlen (by omega)]
  exact hdecrypt

/-! ## A stream cipher -/

/-- The first byte of the keystream of AES-128 in CFB8 mode, under a key and an iv that are all
zeros. CFB8 goes on with other bytes, `xorCipher` with this one over and over. -/
def keystreamByte : UInt8 := 0x66

def xorCipher : Cipher Unit where
  encrypt := {
    init := fun _ _ => ()
    update := fun _ c => some ((), [c ^^^ keystreamByte])
    final := fun _ => some [] }
  decrypt := {
    init := fun _ _ => ()
    update := fun _ c => some ((), [c ^^^ keystreamByte])
    final := fun _ => some [] }

theorem run_xorCipher (key iv cs : List UInt8) :
    xorCipher.encrypt.run key iv cs = (cs.map (· ^^^ keystreamByte), true) := by
  have hfeed : ∀ cs : List UInt8,
      xorCipher.encrypt.feed () cs = (cs.map (· ^^^ keystreamByte), some ()) := by
    intro cs
    induction cs with
    | nil => rfl
    | cons c cs ih =>
      have hupdate : xorCipher.encrypt.update () c = some ((), [c ^^^ keystreamByte]) := rfl
      rw [feed_cons hupdate, ih]
      rfl
  rw [run_ok (hfeed cs) rfl, List.append_nil]

theorem streamCipher_xorCipher : StreamCipher xorCipher := by
  have hsame : xorCipher.decrypt = xorCipher.encrypt := rfl
  refine ⟨fun key iv p => ?_, fun key iv c => ?_, fun key iv p => ?_⟩
  · rw [run_xorCipher]
    exact ⟨rfl, List.length_map _⟩
  · rw [hsame, run_xorCipher]
    exact ⟨rfl, List.length_map _⟩
  · rw [hsame, run_xorCipher, run_xorCipher, List.map_map]
    refine (List.map_congr_left fun b _ => ?_).trans (List.map_id p)
    rw [Function.comp_apply, UInt8.xor_assoc, UInt8.xor_self, UInt8.xor_zero]
    rfl

/-- `river`, which has no `f` in it. CFB8 encrypts it as 14 6d 1d a0 0e, which has no NUL either. -/
theorem decrypt_recovers_river : Recovers xorCipher none (fun _ => some fun _ => 0)
    (fun _ => some fun _ => 0) [] [] [114, 105, 118, 101, 114] :=
  (decrypt_recovers_iff xorCipher none (fun _ => some fun _ => 0) (fun _ => some fun _ => 0) [] []
    [114, 105, 118, 101, 114] streamCipher_xorCipher (by decide) (by decide) (by decide)).mpr
    ⟨nofun, nofun, by rw [Option.getD_none, run_xorCipher]; decide⟩

/-- `f` is encrypted as a NUL, the empty string. -/
theorem decrypt_loses_nul : ¬ ∀ (σ : Type) (aes256Cfb8 : Cipher σ) (cipherType : Option (Cipher σ))
    (contents contents' : Nat → Nat → UInt8) (key iv p : List UInt8),
    StreamCipher (cipherType.getD aes256Cfb8) → p ≠ [] → 0 ∉ p → p.length ≤ intMax →
      Recovers aes256Cfb8 cipherType (fun n => some (contents n)) (fun n => some (contents' n))
        key iv p := by
  intro h
  have hrecovers := h Unit xorCipher none (fun _ _ => 0) (fun _ _ => 0) [] [] [102]
    streamCipher_xorCipher (by decide) (by decide) (by decide)
  obtain ⟨_, _, h0⟩ := @Recovers.no_nul Unit [] [] xorCipher none _ _ [102]
    streamCipher_xorCipher (by decide) hrecovers
  rw [Option.getD_none, run_xorCipher] at h0
  exact absurd h0 (by decide)

end Mikelibc.Crypt
