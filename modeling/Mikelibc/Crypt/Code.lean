import Mikelibc.Lib.Memory

/-! # `encrypt_ssl` and `decrypt_ssl` of `mutil.c`

The two differ only in the functions of libcrypto they call, and these are given: what a
context writes for a byte and at the end, and when that fails. Both guess that twice the
size of the input is enough. -/
namespace Mikelibc.Crypt
open CSem

/-! ## The code -/

/-- The three EVP functions of one direction, on contexts `σ`: `Init_ex` with key and iv, `Update`
with one byte and `Final`. The last two return what they write, unless they fail. -/
structure Evp (σ : Type) where
  init : List UInt8 → List UInt8 → σ
  update : σ → UInt8 → Option (σ × List UInt8)
  final : σ → Option (List UInt8)

structure Cipher (σ : Type) where
  encrypt : Evp σ
  decrypt : Evp σ

structure ErrorTexts where
  update : String
  final : String

/-- The variables of the loop; `outP` is the place in `out` that the pointer is at. -/
structure CryptVars (σ : Type) where
  ctx : σ
  out : Block UInt8 1
  outP : Nat
  i : Nat

variable {σ : Type}

/-- The loop, `for (int i = 0; i < input_size; i++)`; there is no result if an update fails. -/
def cryptLoop (evp : Evp σ) (input : List UInt8) (inputSize : Int) :
    Nat → CryptVars σ → Outcome (Option (CryptVars σ))
  | 0, _ => .hang
  | fuel + 1, v =>
    if v.i < inputSize then do
      let c ← readAt input v.i
      match evp.update v.ctx c with
      | none => return none
      | some (ctx, bytes) => do
        let out ← v.out.put v.outP bytes
        cryptLoop evp input inputSize fuel {
          ctx := ctx
          out := out
          outP := v.outP + bytes.length
          i := v.i + 1 }
    else return some v

/-- Both functions: the buffer, or the text that is logged before `NULL` is returned. -/
def cryptSsl (evp : Evp σ) (texts : ErrorTexts) (malloc : Nat → Option (Nat → UInt8))
    (key iv input : List UInt8) (inputSize : Int) : Outcome (Except String (Block UInt8 1)) := do
  let bytes := (toSize inputSize * 2).toNat
  match malloc bytes with
  | none => .abort
  | some contents =>
    match ← cryptLoop evp input inputSize (inputSize.toNat + 1) {
      ctx := evp.init key iv
      out := Block.fresh bytes contents
      outP := 0
      i := 0 } with
    | none => return .error texts.update
    | some v =>
      match evp.final v.ctx with
      | none => return .error texts.final
      | some last => do
        let out ← v.out.put v.outP last
        let out ← out.store (v.outP + last.length) 0
        return .ok out

/-- `encrypt_ssl`; `aes256Cfb8` is `EVP_aes_256_cfb8()`. -/
def encryptSsl (aes256Cfb8 : Cipher σ) (malloc : Nat → Option (Nat → UInt8)) (key iv : List UInt8)
    (cipherType : Option (Cipher σ)) (plaintext : List UInt8) (inputSize : Int) :
    Outcome (Except String (Block UInt8 1)) :=
  cryptSsl (cipherType.getD aes256Cfb8).encrypt {
    update := "encrypt_aes: EVP_EncryptUpdate returned an error"
    final := "encrypt_aes: EVP_EncryptFinal returned an error" } malloc key iv plaintext inputSize

def decryptSsl (aes256Cfb8 : Cipher σ) (malloc : Nat → Option (Nat → UInt8)) (key iv : List UInt8)
    (cipherType : Option (Cipher σ)) (ciphertext : List UInt8) (inputSize : Int) :
    Outcome (Except String (Block UInt8 1)) :=
  cryptSsl (cipherType.getD aes256Cfb8).decrypt {
    update := "decrypt_aes: EVP_DecryptUpdate returned an error"
    final := "decrypt_aes: EVP_DecryptFinal returned an error" } malloc key iv ciphertext inputSize

/-! ## What is written -/

/-- All that the updates write, and the context behind them if none fails. -/
def Evp.feed (evp : Evp σ) : σ → List UInt8 → List UInt8 × Option σ
  | ctx, [] => ([], some ctx)
  | ctx, c :: cs => match evp.update ctx c with
    | none => ([], none)
    | some (ctx, bytes) => (bytes ++ (evp.feed ctx cs).1, (evp.feed ctx cs).2)

/-- All that is written for an input, and whether every call succeeds. -/
def Evp.run (evp : Evp σ) (key iv input : List UInt8) : List UInt8 × Bool :=
  match evp.feed (evp.init key iv) input with
  | (bytes, none) => (bytes, false)
  | (bytes, some ctx) => match evp.final ctx with
    | none => (bytes, false)
    | some last => (bytes ++ last, true)

variable {evp : Evp σ} {texts : ErrorTexts} {malloc : Nat → Option (Nat → UInt8)}
  {key iv input : List UInt8} {contents : Nat → UInt8}

theorem feed_cons {ctx ctx' : σ} {c : UInt8} {bytes : List UInt8}
    (h : evp.update ctx c = some (ctx', bytes)) (cs : List UInt8) :
    evp.feed ctx (c :: cs) = (bytes ++ (evp.feed ctx' cs).1, (evp.feed ctx' cs).2) := by
  simp only [Evp.feed, h]

/-- The loop writes what the updates write, if there is room for it. -/
theorem cryptLoop_eq {n : Nat} :
    ∀ (rest pre : List UInt8) (fuel : Nat) (v : CryptVars σ), rest.length < fuel →
      n = (pre ++ rest).length → v.i = pre.length → v.outP ≤ v.out.bytes →
      cryptLoop evp (pre ++ rest) n fuel v =
        if v.outP + (evp.feed v.ctx rest).1.length ≤ v.out.bytes then
          .ok ((evp.feed v.ctx rest).2.map fun ctx => {
            ctx := ctx
            out := v.out.write v.outP (evp.feed v.ctx rest).1
            outP := v.outP + (evp.feed v.ctx rest).1.length
            i := n })
        else .fault := by
  intro rest
  induction rest with
  | nil =>
    intro pre fuel v hf hn hi hroom
    obtain ⟨fuel, rfl⟩ : ∃ k, fuel = k + 1 := ⟨fuel - 1, by simp at hf; omega⟩
    have hend : v.i = n := by rw [hi, hn, List.append_nil]
    rw [cryptLoop, if_neg (by omega)]
    simp [Evp.feed, hroom, ← hend]
  | cons c rest ih =>
    intro pre fuel v hf hn hi hroom
    obtain ⟨fuel, rfl⟩ : ∃ k, fuel = k + 1 := ⟨fuel - 1, by omega⟩
    simp only [List.length_append, List.length_cons] at hf hn
    have hread : readAt (pre ++ c :: rest) v.i = .ok c := by
      refine readAt_of ?_
      rw [hi, List.getElem?_append_right (Nat.le_refl _), Nat.sub_self]
      rfl
    rw [cryptLoop, if_pos (by omega), hread, Outcome.ok_bind]
    cases hupdate : evp.update v.ctx c with
    | none => simp [Evp.feed, hupdate, hroom]
    | some r =>
      obtain ⟨ctx, bytes⟩ := r
      simp only [feed_cons hupdate, List.length_append]
      by_cases hfit : v.outP + bytes.length ≤ v.out.bytes
      · have hpre : (pre ++ [c]).length = pre.length + 1 := List.length_append
        rw [Block.put_of (by rwa [Nat.one_mul]), Outcome.ok_bind, List.append_cons,
          ih (pre ++ [c]) fuel _ (by omega) (by rw [List.length_append, hpre]; omega)
            (by rw [hpre, hi]) hfit]
        simp only [Block.write_bytes, Block.write_append, Nat.add_assoc]
      · rw [Block.put_past (by rwa [Nat.one_mul]) (by rwa [Nat.one_mul]),
          if_neg (by omega)]
        rfl

theorem request_eq {n : Nat} (hmax : n ≤ intMax) : (toSize (n : Int) * 2).toNat = 2 * n := by
  unfold intMax at hmax
  rw [UInt64.toNat_mul, toSize_natCast (by omega), show (2 : UInt64).toNat = 2 from rfl]
  omega

theorem run_update {bytes : List UInt8} (h : evp.feed (evp.init key iv) input = (bytes, none)) :
    evp.run key iv input = (bytes, false) := by
  rw [Evp.run, h]

theorem run_final {bytes : List UInt8} {ctx : σ}
    (h : evp.feed (evp.init key iv) input = (bytes, some ctx)) (hfinal : evp.final ctx = none) :
    evp.run key iv input = (bytes, false) := by
  simp only [Evp.run, h, hfinal]

theorem run_ok {bytes last : List UInt8} {ctx : σ}
    (h : evp.feed (evp.init key iv) input = (bytes, some ctx))
    (hfinal : evp.final ctx = some last) :
    evp.run key iv input = (bytes ++ last, true) := by
  simp only [Evp.run, h, hfinal]

theorem put_store {b : Block UInt8 1} {bytes last : List UInt8} (h : bytes.length ≤ b.bytes) :
    (do
      let out ← (b.write 0 bytes).put bytes.length last
      let out ← out.store (bytes.length + last.length) 0
      return Except.ok out : Outcome (Except String (Block UInt8 1))) =
      if (bytes ++ last).length + 1 ≤ b.bytes then .ok (.ok (b.write 0 (bytes ++ last ++ [0])))
      else .fault := by
  rw [List.length_append]
  by_cases hlast : bytes.length + last.length ≤ b.bytes
  · have happend := Block.write_append b 0 bytes last
    rw [Nat.zero_add] at happend
    rw [Block.put_of (by rwa [Nat.one_mul]), Outcome.ok_bind, ← happend]
    by_cases hend : bytes.length + last.length + 1 ≤ b.bytes
    · have hstore := Block.store_write b 0 (bytes ++ last) 0
        (by unfold Block.Fits; rw [List.length_append]; omega)
      rw [List.length_append, Nat.zero_add] at hstore
      rw [hstore, if_pos hend]
      rfl
    · rw [Block.store, Outcome.require_of_not (by unfold Block.Fits; rw [Block.write_bytes]; omega),
        if_neg hend]
      rfl
  · rw [Block.put_past (by rwa [Nat.one_mul]) (by rwa [Nat.one_mul]), if_neg (by omega)]
    rfl

/-- **What both functions do** with an input of `n` bytes when `malloc` does not refuse: a fault
when there is no room in `2 * n` bytes, and otherwise a buffer that holds what was written and a
terminator, or an error. -/
theorem cryptSsl_eq (hmax : input.length ≤ intMax)
    (hm : malloc (2 * input.length) = some contents) :
    (evp.run key iv input).2 = true ∧
        cryptSsl evp texts malloc key iv input input.length =
          (if (evp.run key iv input).1.length + 1 ≤ 2 * input.length then
            .ok (.ok ((Block.fresh (2 * input.length) contents).write 0
              ((evp.run key iv input).1 ++ [0]))) else .fault) ∨
      (evp.run key iv input).2 = false ∧ ∃ text,
        cryptSsl evp texts malloc key iv input input.length =
          (if (evp.run key iv input).1.length ≤ 2 * input.length then .ok (.error text)
            else .fault) := by
  have hbytes := request_eq hmax
  have hloop := @cryptLoop_eq σ evp input.length input [] (input.length + 1)
    ⟨evp.init key iv, Block.fresh (2 * input.length) contents, 0, 0⟩ (Nat.lt_succ_self _) rfl rfl
    (Nat.zero_le _)
  rw [List.nil_append] at hloop
  simp only [Nat.zero_add, Block.fresh_bytes] at hloop
  unfold cryptSsl
  simp only [hbytes, hm, Int.toNat_natCast, hloop]
  obtain ⟨bytes, ctx, hfeed⟩ : ∃ bytes ctx, evp.feed (evp.init key iv) input = (bytes, ctx) :=
    ⟨_, _, rfl⟩
  simp only [hfeed]
  by_cases hfit : bytes.length ≤ 2 * input.length
  · simp only [hfit, if_true, Outcome.ok_bind]
    cases ctx with
    | none =>
      rw [run_update hfeed]
      exact .inr ⟨rfl, texts.update, (if_pos hfit).symm⟩
    | some ctx =>
      cases hfinal : evp.final ctx with
      | none =>
        simp only [Option.map_some, hfinal]
        rw [run_final hfeed hfinal]
        exact .inr ⟨rfl, texts.final, (if_pos hfit).symm⟩
      | some last =>
        simp only [Option.map_some, hfinal]
        rw [run_ok hfeed hfinal]
        exact .inl ⟨rfl, put_store hfit⟩
  · simp only [hfit, if_false, Outcome.fault_bind]
    cases ctx with
    | none =>
      rw [run_update hfeed]
      exact .inr ⟨rfl, "", (if_neg hfit).symm⟩
    | some ctx =>
      cases hfinal : evp.final ctx with
      | none =>
        rw [run_final hfeed hfinal]
        exact .inr ⟨rfl, "", (if_neg hfit).symm⟩
      | some last =>
        rw [run_ok hfeed hfinal]
        refine .inl ⟨rfl, (if_neg ?_).symm⟩
        rw [List.length_append]
        omega

/-- A refused request fails the assertion. -/
theorem cryptSsl_refused (hmax : input.length ≤ intMax) (hm : malloc (2 * input.length) = none) :
    cryptSsl evp texts malloc key iv input input.length = .abort := by
  have hbytes := request_eq hmax
  unfold cryptSsl
  simp only [hbytes, hm]

theorem cryptSsl_ne_fault_iff (hmax : input.length ≤ intMax) :
    cryptSsl evp texts malloc key iv input input.length ≠ .fault ↔
      malloc (2 * input.length) = none ∨
        (evp.run key iv input).1.length + (evp.run key iv input).2.toNat ≤ 2 * input.length := by
  cases hm : malloc (2 * input.length) with
  | none =>
    rw [cryptSsl_refused hmax hm]
    exact iff_of_true nofun (.inl rfl)
  | some contents =>
    rcases @cryptSsl_eq σ evp texts malloc key iv input contents hmax hm with
      ⟨hok, heq⟩ | ⟨hfail, text, heq⟩
    · rw [heq, hok]
      simp
    · rw [heq, hfail]
      simp

end Mikelibc.Crypt
