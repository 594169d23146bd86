import Mikelibc.Follow.Target

/-! # The buffers of `followlink`

The calls of a recursion one by one: what a call does up to the one nested in it, and
which calls are made. A target as long as the buffer is terminated behind it, and the
name that a nested call gets is terminated only if the array it is copied into happens
to hold a NUL in the right place. -/
namespace Mikelibc.Follow
open CSem

variable {fs : FileSystem} {stack : Nat → Garbage} {garbage : Garbage} {n d : Nat}
  {name t p : CString} {buf b : Block UInt8 1}

/-- The calls that are made, by depth, pathname and buffer. -/
inductive Made (fs : FileSystem) (stack : Nat → Garbage) (name : CString) (buf : Block UInt8 1) :
    Nat → CString → Block UInt8 1 → Prop
  | first : Made fs stack name buf 0 name buf
  | nested {d a b p b'} : Made fs stack name buf d a b →
      followlinkCall fs (stack d) a b = .ok (.inr (p, b')) → Made fs stack name buf (d + 1) p b'

/-- A call stays in its two arrays and reads no string past its end; a target that does not fit is
reported as -1, and the nested call gets the string in the buffer. -/
structure Respects (fs : FileSystem) (garbage : Garbage) (name : CString) (buf : Block UInt8 1) :
    Prop where
  noFault : followlinkCall fs garbage name buf ≠ .fault
  reported : ∀ t, fs.linkTarget name = some t → buf.bytes ≤ t.chars.length →
    ∃ r, followlinkCall fs garbage name buf = .ok (.inl r) ∧ r.value = -1
  handed : ∀ p b, followlinkCall fs garbage name buf = .ok (.inr (p, b)) → b.cstring = .ok p

/-- The target found at a pathname is shorter than the buffer and, if it is to be followed, than
`MAXPATH`, where the array holds a NUL right behind it. -/
def FitsIn (fs : FileSystem) (garbage : Garbage) (bufsiz : Nat) (name : CString) : Prop :=
  ∀ t, fs.linkTarget name = some t → t.chars.length < bufsiz ∧
    (fs.linkTarget t ≠ none → garbage.1[t.chars.length]? = some 0)

/-- The name that so many links lead to. -/
def FileSystem.hop (fs : FileSystem) (name : CString) : Nat → Option CString
  | 0 => some name
  | k + 1 => (fs.hop name k).bind fs.linkTarget

/-! ## One call -/

/-- The copy is the name exactly when the array has a NUL right behind it. -/
theorem copyName_eq_iff : copyName garbage t t.chars.length = .ok t ↔
    garbage.1[t.chars.length]? = some 0 := by
  refine ⟨fun h => ?_, copyName_terminated⟩
  have hlt := copyName_lt h
  rw [copyName_short (Nat.le_of_lt hlt)] at h
  have hcell := (Block.holds_append.mp (Block.cstring_holds h)).2 0 0 rfl
  simpa [Block.write, localArray] using hcell

theorem straight_copyName (nbytes : Nat) : (copyName garbage t nbytes).Straight := by
  unfold copyName Block.strncpy
  exact ((Outcome.straight_require _).bind fun _ _ => Outcome.straight_ok _).bind
    fun _ _ => Block.straight_cstring _

/-- A target that is no link ends the recursion. -/
theorem followlinkCall_last (h : fs.linkTarget name = some t) (ht : t.chars.length < buf.bytes)
    (hlast : fs.linkTarget t = none) :
    ∃ r, followlinkCall fs garbage name buf = .ok (.inl r) := by
  rw [followlinkCall_some h ht, FileSystem.lstat]
  cases hf : fs.find t with
  | error e => exact ⟨_, rfl⟩
  | ok q =>
    have hfile : fs.target q.2 = none := FileSystem.linkTarget_ok hf ▸ hlast
    simp only [hfile]
    exact ⟨_, rfl⟩

/-- One that is goes on with the copied name. -/
theorem followlinkCall_again (h : fs.linkTarget name = some t) (ht : t.chars.length < buf.bytes)
    (hagain : fs.linkTarget t ≠ none) :
    followlinkCall fs garbage name buf = (do
      let pathname ← copyName garbage t t.chars.length
      return .inr (pathname, filled buf t)) := by
  obtain ⟨t', ht'⟩ := Option.ne_none_iff_exists'.mp hagain
  obtain ⟨dir, file, hf, hlink⟩ := FileSystem.linkTarget_eq_some.mp ht'
  rw [followlinkCall_some h ht]
  simp only [FileSystem.lstat, hf, hlink, Option.isSome_some]

theorem followlinkCall_inr (hb : buf.bytes ≠ 0)
    (h : followlinkCall fs garbage name buf = .ok (.inr (p, b))) :
    ∃ t, fs.linkTarget name = some t ∧ t.chars.length < buf.bytes ∧ fs.linkTarget t ≠ none ∧
      copyName garbage t t.chars.length = .ok p ∧ b = filled buf t := by
  cases ht : fs.linkTarget name with
  | none =>
    rw [followlinkCall_none (.inr ht)] at h
    cases h
  | some t =>
    have hfit : t.chars.length < buf.bytes := by
      by_contra hlong
      rw [followlinkCall_long hb ht (by omega)] at h
      cases h
    have hagain : fs.linkTarget t ≠ none := by
      intro hlast
      obtain ⟨r, hr⟩ := @followlinkCall_last fs garbage name t buf ht hfit hlast
      rw [hr] at h
      cases h
    rw [followlinkCall_again ht hfit hagain] at h
    obtain ⟨q, hq, h⟩ := Outcome.bind_eq_ok.mp h
    cases h
    exact ⟨t, rfl, hfit, hagain, hq, rfl⟩

theorem respects_iff (hb : buf.bytes ≠ 0) :
    Respects fs garbage name buf ↔ FitsIn fs garbage buf.bytes name := by
  cases ht : fs.linkTarget name with
  | none =>
    have hcall := @followlinkCall_none fs garbage name buf (.inr ht)
    refine iff_of_true ⟨?_, fun t h => ?_, fun p b h => ?_⟩ fun t h => ?_
    · rw [hcall]
      exact nofun
    · rw [ht] at h
      cases h
    · rw [hcall] at h
      cases h
    · rw [ht] at h
      cases h
  | some t =>
    by_cases hfit : t.chars.length < buf.bytes
    · constructor
      · intro h u hu
        obtain rfl := Option.some.inj (ht.symm.trans hu)
        refine ⟨hfit, fun hagain => copyName_eq_iff.mp ?_⟩
        have hcall := @followlinkCall_again fs garbage name t buf ht hfit hagain
        cases hcopy : copyName garbage t t.chars.length with
        | ok p =>
          have hhanded := h.handed p (filled buf t) (by rw [hcall, hcopy]; rfl)
          exact congrArg _ (Outcome.ok.inj (hhanded.symm.trans (filled_cstring hfit)))
        | fault => exact absurd (by rw [hcall, hcopy]; rfl) h.noFault
        | abort => exact absurd hcopy (straight_copyName _).1
        | hang => exact absurd hcopy (straight_copyName _).2
      · intro h
        have hnul := (h t ht).2
        refine ⟨?_, fun u hu hlong => ?_, fun p b hcall => ?_⟩
        · by_cases hagain : fs.linkTarget t = none
          · obtain ⟨r, hr⟩ := @followlinkCall_last fs garbage name t buf ht hfit hagain
            rw [hr]
            exact nofun
          · rw [followlinkCall_again ht hfit hagain, copyName_eq_iff.mpr (hnul hagain)]
            exact nofun
        · obtain rfl := Option.some.inj (ht.symm.trans hu)
          omega
        · obtain ⟨u, hu, _, hagain, hp, rfl⟩ := followlinkCall_inr hb hcall
          obtain rfl := Option.some.inj (ht.symm.trans hu)
          rw [copyName_eq_iff.mpr (hnul hagain)] at hp
          cases hp
          exact filled_cstring hfit
    · refine iff_of_false (fun h => h.noFault ?_) fun h => hfit (h t ht).1
      exact followlinkCall_long hb ht (Nat.le_of_not_lt hfit)

/-! ## The whole recursion -/

/-- Every call made respects its buffers. -/
def BuffersKept (fs : FileSystem) (stack : Nat → Garbage) (name : CString) (buf : Block UInt8 1) :
    Prop := ∀ d a b, Made fs stack name buf d a b → Respects fs (stack d) a b

/-- Where every target fits, the calls go along the links. -/
theorem made_hop (hb : buf.bytes ≠ 0)
    (hfits : ∀ k a, fs.hop name k = some a → FitsIn fs (stack k) buf.bytes a) {a : CString}
    (h : Made fs stack name buf d a b) : fs.hop name d = some a ∧ b.bytes = buf.bytes := by
  induction h with
  | first => exact ⟨rfl, rfl⟩
  | @nested d a b p b' _ hcall ih =>
    obtain ⟨hhop, hbytes⟩ := ih
    obtain ⟨t, ht, _, hagain, hp, rfl⟩ := followlinkCall_inr (by rw [hbytes]; exact hb) hcall
    rw [copyName_eq_iff.mpr ((hfits d a hhop t ht).2 hagain)] at hp
    cases hp
    exact ⟨by rw [FileSystem.hop, hhop]; exact ht, hbytes⟩

/-- Where every call respects its buffers, a call is made at every link on the way. -/
theorem hop_made (hb : buf.bytes ≠ 0) (hkept : BuffersKept fs stack name buf) :
    ∀ (k : Nat) (a : CString), fs.hop name k = some a → k = 0 ∨ fs.linkTarget a ≠ none →
      ∃ b, Made fs stack name buf k a b ∧ b.bytes = buf.bytes := by
  intro k
  induction k with
  | zero =>
    intro a ha _
    cases ha
    exact ⟨buf, .first, rfl⟩
  | succ k ih =>
    intro t hhop hagain
    obtain ⟨a, ha, ht⟩ := Option.bind_eq_some_iff.mp hhop
    obtain ⟨b, hmade, hbytes⟩ := ih a ha (.inr (by rw [ht]; exact Option.some_ne_none t))
    have hfits := (respects_iff (by rw [hbytes]; exact hb)).mp (hkept k a b hmade)
    obtain ⟨hfit, hnul⟩ := hfits t ht
    have hagain := hagain.resolve_left (Nat.succ_ne_zero k)
    refine ⟨filled b t, .nested hmade ?_, hbytes⟩
    rw [followlinkCall_again ht hfit hagain, copyName_eq_iff.mpr (hnul hagain)]
    rfl

/-- **When `followlink` respects its buffers**: exactly when every target found along the links is
shorter than the buffer and, if it is a link itself, the uninitialized array of that call holds a
NUL right behind the copy of it. -/
theorem followlink_buffers_iff (fs : FileSystem) (stack : Nat → Garbage) (name : CString)
    (buf : Block UInt8 1) (hb : buf.bytes ≠ 0) :
    BuffersKept fs stack name buf ↔
      ∀ k a, fs.hop name k = some a → FitsIn fs (stack k) buf.bytes a := by
  constructor
  · intro hkept k a ha t ht
    have hlink : fs.linkTarget a ≠ none := by rw [ht]; exact Option.some_ne_none t
    obtain ⟨b, hmade, hbytes⟩ := hop_made hb hkept k a ha (.inr hlink)
    rw [← hbytes]
    exact (respects_iff (by rw [hbytes]; exact hb)).mp (hkept k a b hmade) t ht
  · intro hfits d a b hmade
    obtain ⟨hhop, hbytes⟩ := made_hop hb hfits hmade
    rw [respects_iff (by rw [hbytes]; exact hb), hbytes]
    exact hfits d a hhop

/-- The link of the test, with a buffer of `MAXPATH` bytes. -/
theorem followlink_buffers_test :
    BuffersKept testDirectory zeroed dotLink (Block.alloc maxpath) := by
  refine (followlink_buffers_iff testDirectory zeroed dotLink (Block.alloc maxpath)
    (by decide)).mpr fun k a ha => ?_
  have hend : ∀ k, testDirectory.hop dotLink (k + 2) = none := fun k => by
    induction k with
    | zero => rfl
    | succ k ih => rw [FileSystem.hop, ih]; rfl
  match k, ha with
  | 0, ha =>
    cases ha
    intro t ht
    cases ht
    exact ⟨by decide, fun hagain => absurd rfl hagain⟩
  | 1, ha =>
    cases ha
    exact fun t ht => by cases ht
  | k + 2, ha =>
    rw [hend k] at ha
    cases ha

/-- `./target` in a buffer of eight bytes: the terminator is written behind it. -/
theorem followlink_past_buffer :
    ¬ ∀ (fs : FileSystem) (stack : Nat → Garbage) (name : CString) (buf : Block UInt8 1),
      buf.bytes ≠ 0 → BuffersKept fs stack name buf := by
  intro h
  have hfirst := h testDirectory zeroed dotLink (Block.alloc 8) (by decide) 0 _ _ .first
  exact hfirst.noFault (followlinkCall_long (t := dotTarget) (by decide) rfl (by decide))

end Mikelibc.Follow
