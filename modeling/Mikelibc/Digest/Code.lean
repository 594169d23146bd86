import Mikelibc.Lib.Heap
import Mikelibc.Lib.Memory

/-! # `digest_sha1` of `mutil.c`

The functions of libcrypto are given. Whatever fails, the context is freed; but where
`EVP_DigestFinal_ex` fails, the digest is freed and returned all the same. -/
namespace Mikelibc.Digest
open CSem

/-! ## The code -/

/-- What a pointer from libcrypto or from `malloc` points to. -/
inductive Object where
  | bytes (b : Block UInt8 1)
  | context

abbrev Heap := Handles Object

/-- `EVP_MD_size(EVP_sha1())`. -/
def digestSize : Nat := 20

/-- The EVP functions of `EVP_sha1()`, on contexts `δ`: `EVP_DigestInit_ex`, `EVP_DigestUpdate` and
`EVP_DigestFinal_ex`; any of them may fail. -/
structure EvpMd (δ : Type) where
  init : Option δ
  update : δ → List UInt8 → Option δ
  final : δ → Option (Vector UInt8 digestSize)

/-- What is left in the heap, and what is returned: the digest, which may be `NULL`, and
`*digest_len`. -/
structure Result where
  heap : Heap
  digest : Option Int
  digestLen : UInt32

variable {δ : Type}

/-- `digest_sha1` from `EVP_DigestInit_ex` to the label `CLEANUP`. -/
def digestBody (md : EvpMd δ) (malloc : Nat → Option (Nat → UInt8)) (input : List UInt8)
    (inLength : UInt64) (digestLen : UInt32) (heap : Heap) : Outcome Result :=
  match md.init with
  | none => return ⟨heap, none, digestLen⟩
  | some d => do
    Outcome.require (inLength.toNat ≤ input.length)
    match md.update d (input.take inLength.toNat) with
    | none => return ⟨heap, none, digestLen⟩
    | some d =>
      match malloc digestSize with
      | none => return ⟨heap, none, digestLen⟩
      | some contents =>
        let digest := heap.next
        let heap := heap.issue (.bytes (Block.fresh digestSize contents))
        match md.final d with
        | none => do
          -- `digest` is freed, and keeps its value
          let heap ← heap.release digest
          return ⟨heap, some digest, digestLen⟩
        | some bytes =>
          let b := (Block.fresh digestSize contents).write 0 bytes.toList
          return ⟨heap.adjust digest fun _ => .bytes b, some digest, UInt32.ofNat digestSize⟩

/-- `digest_sha1`; `ctx` says whether `EVP_MD_CTX_new` returns a context. -/
def digestSha1 (md : EvpMd δ) (ctx : Bool) (malloc : Nat → Option (Nat → UInt8))
    (input : List UInt8) (inLength : UInt64) (digestLen : UInt32) (heap : Heap) : Outcome Result :=
  if ctx then do
    let mdctx := heap.next
    let r ← digestBody md malloc input inLength digestLen (heap.issue .context)
    let heap ← r.heap.release mdctx
    return { r with heap := heap }
  else return ⟨heap, none, digestLen⟩

/-! ## What it returns -/

def digestBlock (contents : Nat → UInt8) (bytes : Vector UInt8 digestSize) : Block UInt8 1 :=
  (Block.fresh digestSize contents).write 0 bytes.toList

/-- What a call with this input returns: `none` is `NULL`, and `some none` a pointer to what has been
freed. -/
def EvpMd.returns (md : EvpMd δ) (ctx : Bool) (malloc : Nat → Option (Nat → UInt8))
    (input : List UInt8) : Option (Option (Block UInt8 1)) :=
  match if ctx then md.init else none with
  | none => none
  | some d =>
    match md.update d input, malloc digestSize with
    | some d, some contents => some ((md.final d).map (digestBlock contents))
    | _, _ => none

/-- The call returns `r`: of what it has taken, only the digest is still there, if it was computed. -/
structure Result.Returns (r : Result) (heap : Heap) (digestLen : UInt32)
    (returned : Option (Option (Block UInt8 1))) (h : Int) : Prop where
  new : heap.next ≤ h ∧ (returned ≠ none → h < r.heap.next)
  leaves : heap.Leaves r.heap (returned.join.map fun b => (h, .bytes b))
  digest : r.digest = returned.map fun _ => h
  length : r.digestLen = if returned.join.isSome then UInt32.ofNat digestSize else digestLen

variable {md : EvpMd δ} {ctx : Bool} {malloc : Nat → Option (Nat → UInt8)} {input : List UInt8}
  {digestLen : UInt32} {heap : Heap}

theorem Result.Returns.null (heap : Heap) (digestLen : UInt32) :
    (⟨heap, none, digestLen⟩ : Result).Returns heap digestLen none heap.next :=
  ⟨⟨Int.le_refl _, nofun⟩, .nothing heap, rfl, rfl⟩

theorem digestBody_spec (hfits : input.length < 2 ^ 64) :
    ∃ r, digestBody md malloc input (UInt64.ofNat input.length) digestLen heap = .ok r ∧
      r.Returns heap digestLen (md.returns true malloc input) heap.next := by
  have hn : (UInt64.ofNat input.length).toNat = input.length := by
    rw [UInt64.toNat_ofNat']
    exact Nat.mod_eq_of_lt hfits
  unfold digestBody EvpMd.returns
  simp only [if_true]
  cases md.init with
  | none => exact ⟨_, rfl, .null heap digestLen⟩
  | some d =>
    simp only [hn, Outcome.require_of (Nat.le_refl _), Outcome.ok_bind, List.take_length]
    cases md.update d input with
    | none => exact ⟨_, rfl, .null heap digestLen⟩
    | some d =>
      cases malloc digestSize with
      | none => exact ⟨_, rfl, .null heap digestLen⟩
      | some contents =>
        have htaken := Handles.Leaves.taken heap (.bytes (Block.fresh digestSize contents))
        have hnext : heap.next < (heap.issue (.bytes (Block.fresh digestSize contents))).next :=
          Int.lt_succ heap.next
        cases hfinal : md.final d with
        | none =>
          obtain ⟨hgive, hleaves⟩ := htaken.give
          simp only [hgive, hfinal, Outcome.ok_bind]
          exact ⟨_, rfl, ⟨Int.le_refl _, fun _ => hnext⟩, hleaves, rfl, rfl⟩
        | some bytes =>
          simp only [hfinal]
          exact ⟨_, rfl, ⟨Int.le_refl _, fun _ => hnext⟩, htaken.adjust _, rfl, rfl⟩

/-- **What `digest_sha1` does.** Nothing of what it takes stays behind, but for the digest; and where
`EVP_DigestFinal_ex` fails, it returns a pointer to what it has freed. -/
theorem digestSha1_spec (md : EvpMd δ) (ctx : Bool) (malloc : Nat → Option (Nat → UInt8))
    (digestLen : UInt32) (heap : Heap) (hfits : input.length < 2 ^ 64) :
    ∃ r h, digestSha1 md ctx malloc input (UInt64.ofNat input.length) digestLen heap = .ok r ∧
      r.Returns heap digestLen (md.returns ctx malloc input) h := by
  cases ctx with
  | false => exact ⟨_, heap.next, rfl, .null heap digestLen⟩
  | true =>
    obtain ⟨r, hbody, hnew, hleaves, hdigest, hlength⟩ := @digestBody_spec _ md malloc input digestLen
      (heap.issue .context) hfits
    obtain ⟨hrelease, hleft⟩ := hleaves.scratch
    refine ⟨{ r with heap := r.heap.drop heap.next }, (heap.issue .context).next, ?_,
      ⟨Int.le_of_lt (Int.lt_succ heap.next), hnew.2⟩, hleft, hdigest, hlength⟩
    simp only [digestSha1, if_true, hbody, Outcome.ok_bind, hrelease]
    rfl

def EvpMd.digest (md : EvpMd δ) (input : List UInt8) : Option (Vector UInt8 digestSize) :=
  match md.init with
  | none => none
  | some d => (md.update d input).bind md.final

theorem returns_eq_some {b : Block UInt8 1} : md.returns ctx malloc input = some (some b) ↔
    ctx = true ∧ ∃ contents bytes, malloc digestSize = some contents ∧
      md.digest input = some bytes ∧ b = digestBlock contents bytes := by
  unfold EvpMd.returns EvpMd.digest
  cases ctx with
  | false => simp
  | true =>
    simp only [if_true, true_and]
    cases md.init with
    | none => simp
    | some d =>
      cases hupdate : md.update d input with
      | none => simp [hupdate]
      | some d =>
        cases malloc digestSize with
        | none => simp
        | some contents =>
          simp only [hupdate, Option.some.injEq, Option.map_eq_some_iff, Option.bind_some]
          constructor
          · rintro ⟨bytes, hfinal, rfl⟩
            exact ⟨contents, bytes, rfl, hfinal, rfl⟩
          · rintro ⟨_, bytes, rfl, hfinal, rfl⟩
            exact ⟨bytes, hfinal, rfl⟩

end Mikelibc.Digest
