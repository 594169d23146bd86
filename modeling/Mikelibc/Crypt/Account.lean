import Mikelibc.Crypt.Code
import Mikelibc.Digest.Code

/-! # Who frees what

`encrypt_ssl`, `decrypt_ssl` and `digest_sha1` return memory that the caller has to free. Over any
sequence of calls, what is in use is what the caller has got and not freed, and a context for every
call of the first two that failed; all of it can be freed, but for the digests of the calls in which
`EVP_DigestFinal_ex` failed. `EVP_CIPHER_CTX_new` is taken to return a context. -/
namespace Mikelibc.Crypt
open CSem Digest

/-! ## The calls, on a heap -/

/-- `encrypt_ssl` and `decrypt_ssl`: they take a buffer, then a context. The buffer gets what `call`
computes; where this fails, it is freed, and the context is not. -/
def cryptOnHeap (inputSize : Int) (call : Outcome (Except String (Block UInt8 1))) (heap : Heap) :
    Outcome (Heap × Option Int) := do
  let crypttext := heap.next
  let heap := heap.issue (.bytes (Block.alloc (toSize inputSize * 2).toNat))
  let ctx := heap.next
  let heap := heap.issue .context
  match ← call with
  | .error _ => do
    let heap ← heap.release crypttext
    return (heap, none)
  | .ok out => do
    let heap ← heap.release ctx
    return (heap.adjust crypttext fun _ => .bytes out, some crypttext)

/-- Arguments of `encrypt_ssl` and `decrypt_ssl`, for an input that is as long as its size says, and
what `malloc` does. -/
structure CryptArgs (σ : Type) where
  malloc : Nat → Option (Nat → UInt8)
  key : List UInt8
  iv : List UInt8
  cipherType : Option (Cipher σ)
  input : { input : List UInt8 // input.length ≤ intMax }

/-- Arguments of `digest_sha1`, and what `EVP_MD_CTX_new` and `malloc` do. -/
structure DigestArgs where
  ctx : Bool
  malloc : Nat → Option (Nat → UInt8)
  input : { input : List UInt8 // input.length < 2 ^ 64 }
  digestLen : UInt32

inductive Call (σ : Type) where
  | encrypt (a : CryptArgs σ)
  | decrypt (a : CryptArgs σ)
  | digest (a : DigestArgs)

structure Library (σ δ : Type) where
  aes256Cfb8 : Cipher σ
  sha1 : EvpMd δ

variable {σ δ : Type} (lib : Library σ δ)

def CryptArgs.encrypted (a : CryptArgs σ) : Outcome (Except String (Block UInt8 1)) :=
  encryptSsl lib.aes256Cfb8 a.malloc a.key a.iv a.cipherType a.input.1 a.input.1.length

def CryptArgs.decrypted (a : CryptArgs σ) : Outcome (Except String (Block UInt8 1)) :=
  decryptSsl lib.aes256Cfb8 a.malloc a.key a.iv a.cipherType a.input.1 a.input.1.length

def DigestArgs.returned (a : DigestArgs) : Option (Option (Block UInt8 1)) :=
  lib.sha1.returns a.ctx a.malloc a.input.1

def Call.run (heap : Heap) : Call σ → Outcome (Heap × Option Int)
  | .encrypt a => cryptOnHeap a.input.1.length (a.encrypted lib) heap
  | .decrypt a => cryptOnHeap a.input.1.length (a.decrypted lib) heap
  | .digest a => do
    let r ← digestSha1 lib.sha1 a.ctx a.malloc a.input.1 (UInt64.ofNat a.input.1.length) a.digestLen
      heap
    return (r.heap, r.digest)

/-- A pointer that the caller has got from a call. -/
structure Owned (σ : Type) where
  ptr : Int
  call : Call σ

/-- A caller, and the pointers it has not freed. -/
structure Client (σ : Type) where
  heap : Heap
  owned : List (Owned σ)

inductive Op (σ : Type) where
  | call (c : Call σ)
  | free (i : Nat)

def step (s : Client σ) : Op σ → Outcome (Client σ × Unit)
  | .call c => do
    let (heap, ptr) ← c.run lib s.heap
    return (⟨heap, ptr.toList.map (Owned.mk · c) ++ s.owned⟩, ())
  | .free i =>
    match s.owned[i]? with
    | none => return (s, ())
    | some o => do
      let heap ← s.heap.release o.ptr
      return (⟨heap, s.owned.eraseIdx i⟩, ())

/-! ## What a call leaves behind -/

/-- The buffer that is computed, if none of the EVP functions fails. -/
def computed : Outcome (Except String (Block UInt8 1)) → Option (Block UInt8 1)
  | .ok (.ok b) => some b
  | _ => none

def failed : Outcome (Except String (Block UInt8 1)) → Bool
  | .ok (.error _) => true
  | _ => false

def Call.output : Call σ → Option (Block UInt8 1)
  | .encrypt a => computed (a.encrypted lib)
  | .decrypt a => computed (a.decrypted lib)
  | .digest a => (a.returned lib).join

/-- The call leaves its context behind. -/
def Call.leaks : Call σ → Bool
  | .encrypt a => failed (a.encrypted lib)
  | .decrypt a => failed (a.decrypted lib)
  | .digest _ => false

/-- `EVP_DigestFinal_ex` fails. -/
def Call.Dangles : Call σ → Prop
  | .encrypt _ | .decrypt _ => False
  | .digest a => a.returned lib = some none

def Op.leaks : Op σ → Bool
  | .call c => c.leaks lib
  | .free _ => false

/-- Of what a call takes it leaves what it returns, or a context and returns `NULL`, or nothing. -/
structure Accounted (lib : Library σ δ) (c : Call σ) (heap heap' : Heap) (ptr : Option Int) : Prop where
  null : ptr = none → ∃ left : Option Int, left.isSome = c.leaks lib ∧
    heap.Leaves heap' (left.map (·, .context))
  pointer : ∀ p, ptr = some p → heap.next ≤ p ∧ p < heap'.next ∧ c.leaks lib = false ∧
    (c.output lib = none ↔ c.Dangles lib) ∧
    heap.Leaves heap' ((c.output lib).map fun b => (p, .bytes b))

variable {lib} {c : Call σ} {heap heap' : Heap} {ptr : Option Int}

theorem cryptOnHeap_spec {inputSize : Int} {call : Outcome (Except String (Block UInt8 1))}
    (h : cryptOnHeap inputSize call heap = .ok (heap', ptr)) :
    (ptr = none ∧ failed call = true ∧ heap.Leaves heap' (some (heap.next + 1, .context))) ∨
      ∃ b, ptr = some heap.next ∧ heap.next < heap'.next ∧ failed call = false ∧
        computed call = some b ∧ heap.Leaves heap' (some (heap.next, .bytes b)) := by
  obtain ⟨r, rfl, hend⟩ := Outcome.bind_eq_ok.mp h
  have hbuffer := Handles.Leaves.taken heap (.bytes (Block.alloc (toSize inputSize * 2).toNat))
  have hctx := Handles.Leaves.taken
    (heap.issue (.bytes (Block.alloc (toSize inputSize * 2).toNat))) Object.context
  cases r with
  | error text =>
    obtain ⟨hrelease, hleaves⟩ := hctx.scratch
    simp only [hrelease, Outcome.ok_bind] at hend
    cases hend
    exact .inl ⟨rfl, rfl, hleaves⟩
  | ok b =>
    obtain ⟨hrelease, hleaves⟩ := hctx.give
    simp only [hrelease, Outcome.ok_bind] at hend
    cases hend
    have hstored := (hbuffer.trans hleaves).adjust fun _ => .bytes b
    exact .inr ⟨b, rfl, Handles.lt_next hstored.value, rfl, rfl, hstored⟩

theorem run_accounted (h : c.run lib heap = .ok (heap', ptr)) : Accounted lib c heap heap' ptr := by
  have hcrypt : ∀ {inputSize : Int} {call : Outcome (Except String (Block UInt8 1))},
      cryptOnHeap inputSize call heap = .ok (heap', ptr) → c.leaks lib = failed call →
      c.output lib = computed call → (c.Dangles lib ↔ False) →
      Accounted lib c heap heap' ptr := by
    intro inputSize call h hleaks houtput hdangles
    obtain ⟨rfl, hfailed, hleaves⟩ | ⟨b, rfl, hnext, hfailed, hcomputed, hleaves⟩ :=
      cryptOnHeap_spec h
    · exact ⟨fun _ => ⟨some _, by rw [hleaks, hfailed]; rfl, hleaves⟩, nofun⟩
    · refine ⟨nofun, fun p hp => ?_⟩
      cases hp
      refine ⟨Int.le_refl _, hnext, by rw [hleaks, hfailed], ?_, by rwa [houtput, hcomputed]⟩
      rw [houtput, hcomputed, hdangles]
      simp
  cases c with
  | encrypt a => exact hcrypt h rfl rfl Iff.rfl
  | decrypt a => exact hcrypt h rfl rfl Iff.rfl
  | digest a =>
    obtain ⟨r, hr, h⟩ := Outcome.bind_eq_ok.mp h
    cases h
    obtain ⟨r', q, hr', hnew, hleaves, hdigest, _⟩ :=
      digestSha1_spec lib.sha1 a.ctx a.malloc a.digestLen heap a.input.2
    cases hr.symm.trans hr'
    have hoffers : Call.output lib (.digest a) = (a.returned lib).join := rfl
    change r.digest = (a.returned lib).map fun _ => q at hdigest
    change heap.Leaves r.heap ((a.returned lib).join.map fun b => (q, .bytes b)) at hleaves
    change _ ∧ (a.returned lib ≠ none → _) at hnew
    cases hreturned : a.returned lib with
    | none =>
      rw [hreturned] at hdigest hleaves
      exact ⟨fun _ => ⟨none, rfl, hleaves⟩, fun p hp => absurd (hdigest.symm.trans hp) nofun⟩
    | some x =>
      rw [hreturned] at hdigest hleaves hoffers
      refine ⟨fun hnull => absurd (hdigest.symm.trans hnull) nofun, fun p hp => ?_⟩
      cases hdigest.symm.trans hp
      refine ⟨hnew.1, hnew.2 (by simp [hreturned]), rfl, ?_, ?_⟩
      · rw [hoffers, Call.Dangles, hreturned]
        simp
      · rw [hoffers]
        exact hleaves

/-! ## Runs -/

/-- The heap of a caller, when `leaked` contexts have been left behind. -/
structure Account (lib : Library σ δ) (s : Client σ) (leaked : Nat) : Prop where
  count : s.heap.live.card = leaked + s.owned.countP fun o => (o.call.output lib).isSome
  below : ∀ o ∈ s.owned, o.ptr < s.heap.next
  distinct : (s.owned.map Owned.ptr).Nodup
  value : ∀ o ∈ s.owned, s.heap.value o.ptr = (o.call.output lib).map .bytes
  context : ∀ p x, s.heap.value p = some x → (∀ o ∈ s.owned, o.ptr ≠ p) → x = .context
  dangles : ∀ o ∈ s.owned, o.call.output lib = none ↔ o.call.Dangles lib

theorem Account.start (lib : Library σ δ) : Account lib ⟨.empty, []⟩ 0 :=
  ⟨rfl, nofun, .nil, nofun, nofun, nofun⟩

variable {s s' : Client σ} {leaked : Nat}

theorem Account.call (h : Account lib s leaked) (hc : Accounted lib c s.heap heap' ptr) :
    Account lib ⟨heap', ptr.toList.map (Owned.mk · c) ++ s.owned⟩
      (leaked + (c.leaks lib).toNat) := by
  have hold : ∀ {left}, s.heap.Leaves heap' left → ∀ o ∈ s.owned,
      heap'.value o.ptr = (o.call.output lib).map .bytes := fun hleaves o ho => by
    rw [hleaves.old _ (h.below o ho), h.value o ho]
  cases ptr with
  | none =>
    obtain ⟨left, hleft, hleaves⟩ := hc.null rfl
    refine ⟨?_, fun o ho => lt_of_lt_of_le (h.below o ho) hleaves.next, h.distinct, hold hleaves,
      fun p x hx hother => ?_, h.dangles⟩
    · simp only [hleaves.card, h.count, Option.isSome_map, hleft, Option.toList_none, List.map_nil,
        List.nil_append]
      omega
    · obtain hbefore | hleft := hleaves.origin hx
      · exact h.context p x hbefore hother
      · obtain ⟨_, _, hpair⟩ := Option.map_eq_some_iff.mp hleft
        cases hpair
        rfl
  | some p =>
    obtain ⟨hfresh, hnext, hleaks, hdangles, hleaves⟩ := hc.pointer p rfl
    refine ⟨?_, List.forall_mem_cons.mpr ⟨hnext, fun o ho =>
      lt_of_lt_of_le (h.below o ho) hleaves.next⟩, List.nodup_cons.mpr ⟨fun hmem => ?_, h.distinct⟩,
      List.forall_mem_cons.mpr ⟨?_, hold hleaves⟩, fun k x hx hother => ?_,
      List.forall_mem_cons.mpr ⟨hdangles, h.dangles⟩⟩
    · simp only [hleaves.card, h.count, hleaks, Option.toList_some, List.map_cons, List.map_nil,
        List.singleton_append, List.countP_cons]
      cases c.output lib with
      | none => simp
      | some b => simp [Nat.add_assoc]
    · obtain ⟨o, ho, hp⟩ := List.mem_map.mp hmem
      exact absurd (h.below o ho) (Int.not_lt.mpr (hp ▸ hfresh))
    · exact Handles.Leaves.value_eq (x := (c.output lib).map .bytes)
        (by rw [Option.map_map]; exact hleaves) hfresh
    · obtain ⟨hnew, hother⟩ := List.forall_mem_cons.mp hother
      obtain hbefore | hleft := hleaves.origin hx
      · exact h.context k x hbefore hother
      · obtain ⟨_, _, hpair⟩ := Option.map_eq_some_iff.mp hleft
        cases hpair
        exact absurd rfl hnew

theorem Account.free (h : Account lib s leaked) {i : Nat} {o : Owned σ} (ho : s.owned[i]? = some o)
    (hfree : s.heap.release o.ptr = .ok heap') :
    Account lib ⟨heap', s.owned.eraseIdx i⟩ leaked := by
  obtain ⟨hi, hget⟩ := List.getElem?_eq_some_iff.mp ho
  have hperm : (o :: s.owned.eraseIdx i).Perm s.owned := hget ▸ List.getElem_cons_eraseIdx_perm hi
  obtain ⟨hused, rfl⟩ := Handles.release_eq_ok.mp hfree
  have hrest : ∀ o' ∈ s.owned.eraseIdx i, o' ∈ s.owned ∧ o'.ptr ≠ o.ptr := fun o' ho' => by
    have hdistinct := (hperm.map Owned.ptr).nodup_iff.mpr h.distinct
    refine ⟨hperm.subset (List.mem_cons_of_mem _ ho'), fun heq => ?_⟩
    exact (List.nodup_cons.mp hdistinct).1 (heq ▸ List.mem_map_of_mem ho')
  have hmem : o ∈ s.owned := hperm.subset List.mem_cons_self
  refine ⟨?_, fun o' ho' => h.below o' (hrest o' ho').1,
    (List.nodup_cons.mp ((hperm.map Owned.ptr).nodup_iff.mpr h.distinct)).2, fun o' ho' => ?_,
    fun p x hx hother => ?_, fun o' ho' => h.dangles o' (hrest o' ho').1⟩
  · have hcount := h.count
    have hcard := Finset.card_erase_add_one (Handles.mem_live.mpr hused)
    have hsome : (o.call.output lib).isSome = true := by
      rw [h.value o hmem] at hused
      simpa [Option.isSome_iff_ne_none] using hused
    rw [← hperm.countP_eq, List.countP_cons, if_pos hsome] at hcount
    simp only [Handles.live_drop]
    omega
  · rw [Handles.value_drop, if_neg (hrest o' ho').2, h.value o' (hrest o' ho').1]
  · rw [Handles.value_drop] at hx
    split at hx
    · cases hx
    · next hne =>
      refine h.context p x hx fun o' ho' => ?_
      obtain rfl | ho' := List.mem_cons.mp (hperm.mem_iff.mpr ho')
      · exact Ne.symm hne
      · exact hother o' ho'

theorem step_account (h : Account lib s leaked) {op : Op σ} {u : Unit}
    (hs : step lib s op = .ok (s', u)) : Account lib s' (leaked + (op.leaks lib).toNat) := by
  cases op with
  | call c =>
    obtain ⟨⟨heap, ptr⟩, hrun, hs⟩ := Outcome.bind_eq_ok.mp hs
    cases hs
    exact h.call (run_accounted hrun)
  | free i =>
    simp only [step] at hs
    split at hs
    · cases hs
      exact h
    · next o ho =>
      obtain ⟨heap, hfree, hs⟩ := Outcome.bind_eq_ok.mp hs
      cases hs
      exact h.free ho hfree

theorem run_account : ∀ {ops : List (Op σ)} {s s' : Client σ} {us : List Unit} {leaked : Nat},
    Account lib s leaked → runOps (step lib) s ops = .ok (s', us) →
    Account lib s' (leaked + ops.countP (Op.leaks lib)) := by
  intro ops
  induction ops with
  | nil => intro s s' us leaked h hrun; cases hrun; exact h
  | cons op ops ih =>
    intro s s' us leaked h hrun
    obtain ⟨⟨t, u⟩, ht, hrun⟩ := Outcome.bind_eq_ok.mp hrun
    obtain ⟨⟨t', us'⟩, ht', hrun⟩ := Outcome.bind_eq_ok.mp hrun
    cases hrun
    have hall := ih (step_account h ht) ht'
    rw [List.countP_cons]
    cases hleaks : op.leaks lib <;> simpa [hleaks, Nat.add_assoc, Nat.add_comm 1] using hall

/-- **Who frees what.** At any time in any sequence of calls, a context is in use for every call of
`encrypt_ssl` or `decrypt_ssl` that failed, and beside these only what the caller has got and not
freed: all that it has not got is a context. It can free what it has got, which still holds what the
call put there, unless it is a digest for which `EVP_DigestFinal_ex` failed: that one is not in use
any more. -/
theorem crypto_account {ops : List (Op σ)} {us : List Unit}
    (hrun : runOps (step lib) ⟨.empty, []⟩ ops = .ok (s, us)) :
    s.heap.live.card = ops.countP (Op.leaks lib) +
      s.owned.countP (fun o => (o.call.output lib).isSome) ∧
    (∀ p ∈ s.heap.live, (∀ o ∈ s.owned, o.ptr ≠ p) → s.heap.value p = some .context) ∧
    ∀ o ∈ s.owned, (s.heap.release o.ptr = .fault ↔ o.call.Dangles lib) ∧
      ∀ b, o.call.output lib = some b → s.heap.value o.ptr = some (.bytes b) := by
  have h := run_account (.start lib) hrun
  rw [Nat.zero_add] at h
  refine ⟨h.count, fun p hp hother => ?_,
    fun o ho => ⟨?_, fun b hb => by rw [h.value o ho, hb]; rfl⟩⟩
  · obtain ⟨x, hx⟩ := Option.ne_none_iff_exists'.mp (Handles.mem_live.mp hp)
    rw [hx, h.context p x hx hother]
  have hvalue := h.value o ho
  rw [← h.dangles o ho]
  cases houtput : o.call.output lib with
  | none =>
    rw [houtput] at hvalue
    exact iff_of_true (Handles.release_unused hvalue) rfl
  | some b =>
    rw [houtput] at hvalue
    rw [Handles.release_of (by rw [hvalue]; exact Option.some_ne_none _)]
    exact iff_of_false nofun nofun

/-! ## One of each -/

/-- A cipher that writes each byte as it is, and does not come to an end behind a zero byte; a digest
of zeros, which does not come to an end for an input without bytes. -/
def plainLibrary : Library UInt8 Bool where
  aes256Cfb8 :=
    let evp := ⟨fun _ _ => 1, fun _ c => some (c, [c]), fun c => if c = 0 then none else some []⟩
    ⟨evp, evp⟩
  sha1 := ⟨some false, fun _ input => some (!input.isEmpty),
    fun d => if d then some (Vector.replicate digestSize 0) else none⟩

/-- A call of `encrypt_ssl` that fails, one that does not, and a digest that is not computed; then
the caller frees what it got last but one. -/
def threeCalls : List (Op UInt8) :=
  let zeroed : Nat → Option (Nat → UInt8) := fun _ => some fun _ => 0
  [.call (.encrypt ⟨zeroed, [], [], none, ⟨[7, 0], by decide⟩⟩),
    .call (.encrypt ⟨zeroed, [], [], none, ⟨[7], by decide⟩⟩),
    .call (.digest ⟨true, zeroed, ⟨[], by decide⟩, 0⟩), .free 1]

theorem crypto_account_three : ∃ (s : Client UInt8) (us : List Unit),
    runOps (step plainLibrary) ⟨.empty, []⟩ threeCalls = .ok (s, us) ∧ s.owned.length = 1 ∧
      (s.heap.live.card = threeCalls.countP (Op.leaks plainLibrary) +
        s.owned.countP (fun o => (o.call.output plainLibrary).isSome) ∧
      (∀ p ∈ s.heap.live, (∀ o ∈ s.owned, o.ptr ≠ p) → s.heap.value p = some .context) ∧
      ∀ o ∈ s.owned, (s.heap.release o.ptr = .fault ↔ o.call.Dangles plainLibrary) ∧
        ∀ b, o.call.output plainLibrary = some b → s.heap.value o.ptr = some (.bytes b)) := by
  obtain ⟨⟨s, us⟩, hrun, hp⟩ := Outcome.any_eq_true.mp (by decide +kernel :
    (runOps (step plainLibrary) ⟨.empty, []⟩ threeCalls).any (fun q => q.1.owned.length == 1) = true)
  exact ⟨s, us, hrun, eq_of_beq hp, crypto_account hrun⟩

end Mikelibc.Crypt
