import Mikelibc.Crypt.Code

/-! # The buffers of `encrypt_ssl` and `decrypt_ssl`

Twice the size of the input, against what libcrypto is documented to write: as many bytes
as it gets in a stream mode, whole blocks of 16 bytes with the padding in a block mode. The
terminator does not fit where these are twice the input already. -/
namespace Mikelibc.Crypt
open CSem

inductive Mode where
  | stream
  | block

def Mode.total : Mode → Nat → Nat
  | .stream, n => n
  | .block, n => (n / 16 + 1) * 16

/-- Encryption succeeds and writes that much, and decryption no more than it gets. -/
structure Contract {σ : Type} (cipher : Cipher σ) (mode : Mode) : Prop where
  encrypts : ∀ key iv input, (cipher.encrypt.run key iv input).2 = true ∧
    (cipher.encrypt.run key iv input).1.length = mode.total input.length
  decrypts : ∀ key iv input, (cipher.decrypt.run key iv input).1.length ≤ input.length

/-- The input is long enough for its encryption and a terminator. -/
def Mode.Roomy : Mode → Nat → Prop
  | .stream, n => 1 ≤ n
  | .block, n => 9 ≤ n ∧ n ≠ 16

theorem Mode.roomy_iff (mode : Mode) (n : Nat) : mode.total n + 1 ≤ 2 * n ↔ mode.Roomy n := by
  cases mode with
  | stream =>
    simp only [Mode.total, Mode.Roomy]
    omega
  | block =>
    simp only [Mode.total, Mode.Roomy]
    omega

/-- **When the buffers are large enough**: `encrypt_ssl` and `decrypt_ssl` stay within the
`2 * n` bytes they ask for exactly when `malloc` refuses them, or the input of `encrypt_ssl` is
long enough for its mode and that of `decrypt_ssl` is not empty, unless decrypting nothing is
an error. -/
theorem crypt_sizes_iff {σ : Type} (aes256Cfb8 : Cipher σ) (cipherType : Option (Cipher σ))
    (mode : Mode) (malloc : Nat → Option (Nat → UInt8)) (key iv input : List UInt8)
    (hcipher : Contract (cipherType.getD aes256Cfb8) mode) (hmax : input.length ≤ intMax) :
    (encryptSsl aes256Cfb8 malloc key iv cipherType input input.length ≠ .fault ↔
      malloc (2 * input.length) = none ∨ mode.Roomy input.length) ∧
    (decryptSsl aes256Cfb8 malloc key iv cipherType input input.length ≠ .fault ↔
      malloc (2 * input.length) = none ∨ 1 ≤ input.length ∨
        ((cipherType.getD aes256Cfb8).decrypt.run key iv []).2 = false) := by
  obtain ⟨hok, htotal⟩ := hcipher.encrypts key iv input
  have hle := hcipher.decrypts key iv input
  constructor
  · rw [encryptSsl, cryptSsl_ne_fault_iff hmax, hok, htotal, Bool.toNat_true, mode.roomy_iff]
  · rw [decryptSsl, cryptSsl_ne_fault_iff hmax]
    refine or_congr Iff.rfl ?_
    by_cases hempty : input.length = 0
    · obtain rfl := List.length_eq_zero_iff.mp hempty
      cases ((cipherType.getD aes256Cfb8).decrypt.run key iv []).2 <;> simp_all
    · have hbit := Bool.toNat_le ((cipherType.getD aes256Cfb8).decrypt.run key iv input).2
      exact iff_of_true (by omega) (.inl (by omega))

/-! ## A block mode -/

/-- The blocks of a block mode with its padding, and nothing done to them: a block is encrypted as
soon as it is complete, and decrypted when there are bytes behind it. -/
def plainBlocks : Cipher (List UInt8) where
  encrypt := {
    init := fun _ _ => []
    update := fun held c =>
      if held.length = 15 then some ([], held ++ [c]) else some (held ++ [c], [])
    final := fun held =>
      some (held ++ List.replicate (16 - held.length) (UInt8.ofNat (16 - held.length))) }
  decrypt := {
    init := fun _ _ => []
    update := fun held c =>
      if held.length = 16 then some ([c], held) else some (held ++ [c], [])
    final := fun held =>
      if held.length = 16 then some (held.take (16 - (held.getD 15 0).toNat)) else none }

theorem feed_encrypt (cs : List UInt8) :
    ∀ held : List UInt8, held.length < 16 → ∃ held',
      (plainBlocks.encrypt.feed held cs).2 = some held' ∧
      held'.length = (held.length + cs.length) % 16 ∧
      (plainBlocks.encrypt.feed held cs).1.length = (held.length + cs.length) / 16 * 16 := by
  induction cs with
  | nil =>
    intro held hheld
    refine ⟨held, rfl, ?_, ?_⟩
    · rw [List.length_nil, Nat.add_zero, Nat.mod_eq_of_lt hheld]
    · simp only [Evp.feed, List.length_nil]
      omega
  | cons c cs ih =>
    intro held hheld
    have hlonger : (held ++ [c]).length = held.length + 1 := List.length_append
    by_cases hfull : held.length = 15
    · have hupdate : plainBlocks.encrypt.update held c = some ([], held ++ [c]) := if_pos hfull
      obtain ⟨held', hctx, hlen, hout⟩ := ih [] (by decide)
      rw [feed_cons hupdate, List.length_append, hlonger, hout]
      rw [List.length_nil] at hlen ⊢
      rw [List.length_cons]
      exact ⟨held', hctx, by omega, by omega⟩
    · have hupdate : plainBlocks.encrypt.update held c = some (held ++ [c], []) := if_neg hfull
      obtain ⟨held', hctx, hlen, hout⟩ := ih (held ++ [c]) (by omega)
      rw [feed_cons hupdate, List.length_append, List.length_nil, hout, List.length_cons]
      exact ⟨held', hctx, by omega, by omega⟩

theorem feed_decrypt (cs : List UInt8) :
    ∀ held : List UInt8, ∃ held', (plainBlocks.decrypt.feed held cs).2 = some held' ∧
      (plainBlocks.decrypt.feed held cs).1.length + held'.length = held.length + cs.length := by
  induction cs with
  | nil =>
    intro held
    exact ⟨held, rfl, Nat.zero_add _⟩
  | cons c cs ih =>
    intro held
    by_cases hfull : held.length = 16
    · have hupdate : plainBlocks.decrypt.update held c = some ([c], held) := if_pos hfull
      obtain ⟨held', hctx, hlen⟩ := ih [c]
      rw [feed_cons hupdate, List.length_append, List.length_cons]
      rw [List.length_singleton] at hlen
      exact ⟨held', hctx, by omega⟩
    · have hupdate : plainBlocks.decrypt.update held c = some (held ++ [c], []) := if_neg hfull
      obtain ⟨held', hctx, hlen⟩ := ih (held ++ [c])
      rw [feed_cons hupdate, List.length_append, List.length_nil, List.length_cons]
      rw [List.length_append, List.length_singleton] at hlen
      exact ⟨held', hctx, by omega⟩

theorem contract_plainBlocks : Contract plainBlocks .block := by
  constructor
  · intro key iv input
    obtain ⟨held, hctx, hlen, hout⟩ := feed_encrypt input [] (by decide)
    have hrun := @run_ok _ plainBlocks.encrypt key iv input _ _ held (Prod.ext rfl hctx) rfl
    rw [hrun]
    refine ⟨rfl, ?_⟩
    rw [List.length_nil, Nat.zero_add] at hlen hout
    change (plainBlocks.encrypt.feed [] input).1.length = _ at hout
    simp only [List.length_append, List.length_replicate, hlen, Mode.total]
    change (plainBlocks.encrypt.feed [] input).1.length + _ = _
    omega
  · intro key iv input
    obtain ⟨held, hctx, hlen⟩ := feed_decrypt input []
    rw [List.length_nil, Nat.zero_add] at hlen
    by_cases hfull : held.length = 16
    · have hfinal : plainBlocks.decrypt.final held =
          some (held.take (16 - (held.getD 15 0).toNat)) := if_pos hfull
      rw [@run_ok _ plainBlocks.decrypt key iv input _ _ held (Prod.ext rfl hctx) hfinal,
        List.length_append, List.length_take]
      change (plainBlocks.decrypt.feed [] input).1.length + _ ≤ _
      omega
    · have hfinal : plainBlocks.decrypt.final held = none := if_neg hfull
      rw [@run_final _ plainBlocks.decrypt key iv input _ held (Prod.ext rfl hctx) hfinal]
      change (plainBlocks.decrypt.feed [] input).1.length ≤ _
      omega

/-- A stream mode, for `EVP_aes_256_cfb8()`, which is used if the caller passes no cipher. -/
def plainStream : Cipher (List UInt8) :=
  let evp : Evp (List UInt8) := ⟨fun _ _ => [], fun held c => some (held, [c]), fun _ => some []⟩
  ⟨evp, evp⟩

theorem crypt_sizes_nine :
    encryptSsl plainStream (fun _ => some fun _ => 0) [] [] (some plainBlocks) (List.replicate 9 97) 9
      ≠ .fault ∧
    decryptSsl plainStream (fun _ => some fun _ => 0) [] [] (some plainBlocks) (List.replicate 9 97) 9
      ≠ .fault :=
  have h := crypt_sizes_iff plainStream (some plainBlocks) .block (fun _ => some fun _ => 0) [] []
    (List.replicate 9 97) contract_plainBlocks (by decide)
  ⟨h.1.mpr (.inr ⟨by decide, by decide⟩), h.2.mpr (.inr (.inl (by decide)))⟩

/-- One whole block: its encryption fills the buffer, and the terminator is written behind it. -/
theorem encrypt_past_buffer : ¬ ∀ (σ : Type) (aes256Cfb8 : Cipher σ)
    (cipherType : Option (Cipher σ)) (mode : Mode) (malloc : Nat → Option (Nat → UInt8))
    (key iv input : List UInt8),
    Contract (cipherType.getD aes256Cfb8) mode → input.length ≤ intMax →
      encryptSsl aes256Cfb8 malloc key iv cipherType input input.length ≠ .fault ∧
      decryptSsl aes256Cfb8 malloc key iv cipherType input input.length ≠ .fault := by
  intro h
  have hsafe := (h _ plainStream (some plainBlocks) .block (fun _ => some fun _ => 0) [] []
    (List.replicate 16 97) contract_plainBlocks (by decide)).1
  rw [encryptSsl, cryptSsl_ne_fault_iff (by decide)] at hsafe
  rcases hsafe with hnone | hfit
  · cases hnone
  · obtain ⟨hok, htotal⟩ := contract_plainBlocks.encrypts [] [] (List.replicate 16 97)
    simp only [Option.getD_some, hok, htotal] at hfit
    exact absurd hfit (by decide)

end Mikelibc.Crypt
