import Mikelibc.Follow.Code
import Mikelibc.Lib.Walk

/-! # Does `followlink` come to an end?

What one call does, by what its pathname and the target found there stand for; then
the calls nested in it. The array `pathname` gets no terminator: with NULs in it the
recursion goes along the links, with none in it already the second call reads past
its end. -/
namespace Mikelibc.Follow
open CSem Relation

variable {fs : FileSystem} {stack : Nat → Garbage} {garbage : Garbage} {n d : Nat}
  {name t : CString}
  {buf : Block UInt8 1}

/-- The target of the link that a pathname stands for in the working directory, if it does. -/
def FileSystem.linkTarget (fs : FileSystem) (path : CString) : Option CString :=
  match fs.find path with
  | .error _ => none
  | .ok (_, file) => fs.target file

theorem FileSystem.linkTarget_error {e : String} (h : fs.find name = .error e) :
    fs.linkTarget name = none := by
  simp [linkTarget, h]

theorem FileSystem.linkTarget_ok {dir file : Nat} (h : fs.find name = .ok (dir, file)) :
    fs.linkTarget name = fs.target file := by
  simp [linkTarget, h]

theorem FileSystem.linkTarget_eq_some :
    fs.linkTarget name = some t ↔
      ∃ dir file, fs.find name = .ok (dir, file) ∧ fs.target file = some t := by
  constructor
  · intro h
    cases hf : fs.find name with
    | error e => rw [linkTarget_error hf] at h; cases h
    | ok p => exact ⟨p.1, p.2, rfl, linkTarget_ok hf ▸ h⟩
  · intro h
    obtain ⟨dir, file, hf, ht⟩ := h
    rw [linkTarget_ok hf, ht]

theorem FileSystem.readlink_none {bufsiz : Nat} (h : bufsiz = 0 ∨ fs.linkTarget name = none) :
    ∃ e, fs.readlink name bufsiz = .error e := by
  unfold readlink
  by_cases hb : bufsiz = 0
  · exact ⟨_, if_pos hb⟩
  · have hnone := h.resolve_left hb
    rw [if_neg hb]
    cases hf : fs.find name with
    | error e => exact ⟨e, rfl⟩
    | ok p =>
      obtain ⟨dir, file⟩ := p
      rw [linkTarget_ok hf] at hnone
      exact ⟨"Invalid argument", by simp only [hnone]⟩

theorem FileSystem.readlink_some {bufsiz : Nat} (hb : bufsiz ≠ 0) (h : fs.linkTarget name = some t) :
    fs.readlink name bufsiz = .ok (t.chars.take bufsiz) := by
  obtain ⟨dir, file, hf, ht⟩ := linkTarget_eq_some.mp h
  unfold readlink
  rw [if_neg hb, hf]
  simp only [ht]

/-! ## The copy of the name -/

theorem copyName_short {garbage : Garbage} (ht : t.chars.length ≤ maxpath) :
    copyName garbage t t.chars.length = ((localArray garbage).write 0 t.chars).cstring := by
  unfold copyName
  rw [Block.strncpy_of 0 (by omega) ht, Outcome.ok_bind, List.drop_zero, List.take_length]

/-- If the array has a NUL right behind the copy, it is a string again. -/
theorem copyName_terminated {garbage : Garbage} (h : garbage.1[t.chars.length]? = some 0) :
    copyName garbage t t.chars.length = .ok t := by
  have hlt : t.chars.length < maxpath := by
    have := (List.getElem?_eq_some_iff.mp h).1
    rwa [garbage.2] at this
  rw [copyName_short (Nat.le_of_lt hlt)]
  refine Block.cstring_of t (Block.holds_append.mpr ⟨Block.holds_write _ _ _, ?_⟩) hlt
  refine Block.holds_cons.mpr ⟨?_, Block.holds_nil _ _⟩
  simpa [Block.write, localArray] using h

theorem copyName_zeroed {garbage : Garbage} (hzero : garbage.1 = List.replicate maxpath 0)
    (ht : t.chars.length < maxpath) : copyName garbage t t.chars.length = .ok t :=
  copyName_terminated (by rw [hzero, List.getElem?_replicate, if_pos ht])

/-- If it holds none, or if there is no room for one, the copy is not terminated. -/
theorem copyName_unterminated {garbage : Garbage} (h : 0 ∉ garbage.1 ∨ maxpath ≤ t.chars.length) :
    copyName garbage t t.chars.length = .fault := by
  by_cases ht : t.chars.length ≤ maxpath
  · rw [copyName_short ht]
    refine Block.cstring_unterminated fun i hi hcell => ?_
    by_cases hit : i < t.chars.length
    · have hwritten := (localArray garbage).write_cell (k := 0) hit
      rw [Nat.zero_add] at hwritten
      rw [hwritten] at hcell
      exact t.noNul (Option.some.inj hcell ▸ List.getElem_mem hit)
    · have hleft : garbage.1[i]? = some 0 := by simpa [Block.write, localArray, hit] using hcell
      have hi : i < maxpath := hi
      exact h.elim (fun h0 => h0 (List.mem_of_getElem? hleft)) fun hlong => by omega
  · unfold copyName
    rw [Block.strncpy_past 0 ht]
    rfl

theorem copyName_lt {garbage : Garbage} {p : CString}
    (h : copyName garbage t t.chars.length = .ok p) : t.chars.length < maxpath := by
  by_contra hlong
  rw [copyName_unterminated (.inr (by omega))] at h
  cases h

/-! ## One call -/

/-- The buffer after a target that fits has been put into it. -/
def filled (buf : Block UInt8 1) (t : CString) : Block UInt8 1 := buf.write 0 (t.chars ++ [0])

@[simp] theorem filled_bytes : (filled buf t).bytes = buf.bytes := rfl

theorem filled_cstring (ht : t.chars.length < buf.bytes) : (filled buf t).cstring = .ok t :=
  Block.cstring_of t (Block.holds_write _ _ _) ht

/-- One call: what it returns, or the pathname and the buffer of the call nested in it. -/
def followlinkCall (fs : FileSystem) (garbage : Garbage) (pathname : CString)
    (buf : Block UInt8 1) : Outcome (Followed ⊕ (CString × Block UInt8 1)) :=
  match fs.readlink pathname buf.bytes with
  | .error _ => return .inl ⟨-1, buf, []⟩
  | .ok bytes => do
    let nbytes := bytes.length
    let buf ← (buf.write 0 bytes).store nbytes 0
    let link ← buf.cstring
    match fs.lstat link with
    | .error e => return .inl ⟨-1, buf, ["stat: " ++ e ++ "\n"]⟩
    | .ok true => do
      let pathname ← copyName garbage link nbytes
      return .inr (pathname, buf)
    | .ok false => return .inl ⟨nbytes, buf, []⟩

/-- The recursion is made of these calls. -/
theorem followlink_succ : followlink fs stack (n + 1) d name buf =
    (do match ← followlinkCall fs (stack d) name buf with
      | .inl r => return r
      | .inr (p, b) => followlink fs stack n (d + 1) p b) := by
  rw [followlink, followlinkCall]
  cases fs.readlink name buf.bytes with
  | error e => rfl
  | ok bytes =>
    simp only
    cases (buf.write 0 bytes).store bytes.length 0 with
    | abort | fault | hang => rfl
    | ok b =>
      simp only [Outcome.ok_bind]
      cases b.cstring with
      | abort | fault | hang => rfl
      | ok link =>
        simp only [Outcome.ok_bind]
        cases fs.lstat link with
        | error e => rfl
        | ok more =>
          cases more with
          | false => rfl
          | true =>
            simp only
            cases copyName (stack d) link bytes.length <;> rfl

theorem followlinkCall_none (h : buf.bytes = 0 ∨ fs.linkTarget name = none) :
    followlinkCall fs garbage name buf = .ok (.inl ⟨-1, buf, []⟩) := by
  obtain ⟨e, he⟩ := FileSystem.readlink_none h
  rw [followlinkCall, he]
  rfl

/-- A target as long as the buffer: the terminator is written behind the buffer. -/
theorem followlinkCall_long (hb : buf.bytes ≠ 0) (h : fs.linkTarget name = some t)
    (ht : buf.bytes ≤ t.chars.length) : followlinkCall fs garbage name buf = .fault := by
  have hlen : (t.chars.take buf.bytes).length = buf.bytes := by
    rw [List.length_take]
    omega
  rw [followlinkCall, FileSystem.readlink_some hb h]
  simp only [hlen, Block.store]
  rw [Outcome.require_of_not (by simp [Block.Fits])]
  rfl

theorem followlinkCall_some (h : fs.linkTarget name = some t) (ht : t.chars.length < buf.bytes) :
    followlinkCall fs garbage name buf = (match fs.lstat t with
      | .error e => return .inl ⟨-1, filled buf t, ["stat: " ++ e ++ "\n"]⟩
      | .ok true => do
        let pathname ← copyName garbage t t.chars.length
        return .inr (pathname, filled buf t)
      | .ok false => return .inl ⟨t.chars.length, filled buf t, []⟩) := by
  have hstore : (buf.write 0 t.chars).store t.chars.length 0 = .ok (filled buf t) := by
    have := Block.store_write buf 0 t.chars 0 (by simp only [Block.Fits]; omega)
    rwa [Nat.zero_add] at this
  rw [followlinkCall, FileSystem.readlink_some (by omega) h, List.take_of_length_le (by omega)]
  dsimp only
  rw [hstore, Outcome.ok_bind, filled_cstring ht]
  rfl

theorem followlink_none (h : buf.bytes = 0 ∨ fs.linkTarget name = none) :
    followlink fs stack (n + 1) d name buf = .ok ⟨-1, buf, []⟩ := by
  rw [followlink_succ, followlinkCall_none h]
  rfl

theorem followlink_long (hb : buf.bytes ≠ 0) (h : fs.linkTarget name = some t)
    (ht : buf.bytes ≤ t.chars.length) : followlink fs stack (n + 1) d name buf = .fault := by
  rw [followlink_succ, followlinkCall_long hb h ht]
  rfl

theorem followlink_some (h : fs.linkTarget name = some t) (ht : t.chars.length < buf.bytes) :
    followlink fs stack (n + 1) d name buf = (match fs.lstat t with
      | .error e => return ⟨-1, filled buf t, ["stat: " ++ e ++ "\n"]⟩
      | .ok true => do
        let pathname ← copyName (stack d) t t.chars.length
        followlink fs stack n (d + 1) pathname (filled buf t)
      | .ok false => return ⟨t.chars.length, filled buf t, []⟩) := by
  rw [followlink_succ, followlinkCall_some h ht]
  cases fs.lstat t with
  | error e => rfl
  | ok more =>
    cases more with
    | false => rfl
    | true =>
      simp only
      cases copyName (stack d) t t.chars.length <;> rfl

theorem followlink_dangling {e : String} (h : fs.linkTarget name = some t)
    (ht : t.chars.length < buf.bytes) (hf : fs.find t = .error e) :
    followlink fs stack (n + 1) d name buf =
      .ok ⟨-1, filled buf t, ["stat: " ++ e ++ "\n"]⟩ := by
  rw [followlink_some h ht]
  simp [FileSystem.lstat, hf]

theorem followlink_file {dir file : Nat} (h : fs.linkTarget name = some t)
    (ht : t.chars.length < buf.bytes) (hf : fs.find t = .ok (dir, file))
    (hfile : fs.target file = none) :
    followlink fs stack (n + 1) d name buf = .ok ⟨t.chars.length, filled buf t, []⟩ := by
  rw [followlink_some h ht]
  simp [FileSystem.lstat, hf, hfile]

theorem followlink_again {t' : CString} (h : fs.linkTarget name = some t)
    (ht : t.chars.length < buf.bytes) (hagain : fs.linkTarget t = some t') :
    followlink fs stack (n + 1) d name buf = (do
      let pathname ← copyName (stack d) t t.chars.length
      followlink fs stack n (d + 1) pathname (filled buf t)) := by
  rw [followlink_some h ht]
  obtain ⟨dir, file, hf, hlink⟩ := FileSystem.linkTarget_eq_some.mp hagain
  simp only [FileSystem.lstat, hf, hlink, Option.isSome_some]

/-- **What a call that ends does**: there is no link, or its target fits the buffer and stands for
nothing, for a file, or for another link that the copied name goes on with. -/
theorem followlink_eq_ok {r : Followed} (h : followlink fs stack (n + 1) d name buf = .ok r) :
    ((buf.bytes = 0 ∨ fs.linkTarget name = none) ∧ r = ⟨-1, buf, []⟩) ∨
    ∃ t, fs.linkTarget name = some t ∧ t.chars.length < buf.bytes ∧
      ((∃ e, fs.find t = .error e ∧ r = ⟨-1, filled buf t, ["stat: " ++ e ++ "\n"]⟩) ∨
        (∃ dir file, fs.find t = .ok (dir, file) ∧ fs.target file = none ∧
          r = ⟨t.chars.length, filled buf t, []⟩) ∨
        ∃ t' p, fs.linkTarget t = some t' ∧ copyName (stack d) t t.chars.length = .ok p ∧
          followlink fs stack n (d + 1) p (filled buf t) = .ok r) := by
  by_cases hnone : buf.bytes = 0 ∨ fs.linkTarget name = none
  · rw [followlink_none hnone] at h
    exact .inl ⟨hnone, (Outcome.ok.inj h).symm⟩
  · simp only [not_or, Option.ne_none_iff_exists'] at hnone
    obtain ⟨hb, t, ht⟩ := hnone
    have hfit : t.chars.length < buf.bytes := by
      by_contra hlong
      rw [followlink_long hb ht (by omega)] at h
      cases h
    refine .inr ⟨t, ht, hfit, ?_⟩
    cases hf : fs.find t with
    | error e =>
      rw [followlink_dangling ht hfit hf] at h
      exact .inl ⟨e, rfl, (Outcome.ok.inj h).symm⟩
    | ok p =>
      obtain ⟨dir, file⟩ := p
      cases hfile : fs.target file with
      | none =>
        rw [followlink_file ht hfit hf hfile] at h
        exact .inr (.inl ⟨dir, file, rfl, hfile, (Outcome.ok.inj h).symm⟩)
      | some t' =>
        have hagain : fs.linkTarget t = some t' := by rw [FileSystem.linkTarget_ok hf, hfile]
        rw [followlink_again ht hfit hagain] at h
        obtain ⟨p, hp, h⟩ := Outcome.bind_eq_ok.mp h
        exact .inr (.inr ⟨t', p, hagain, hp, h⟩)

/-! ## The calls nested in it -/

/-- The length of the path in the buffer, or -1. -/
def Answer (r : Followed) : Prop :=
  r.value = -1 ∨ ∃ path : CString, r.buf.cstring = .ok path ∧ r.value = path.chars.length

/-- The recursion ends, with an answer. -/
def Returns (fs : FileSystem) (stack : Nat → Garbage) (pathname : CString)
    (buf : Block UInt8 1) : Prop :=
  ∃ fuel r, followlink fs stack fuel 0 pathname buf = .ok r ∧ Answer r

theorem followlink_answer {r : Followed} (h : followlink fs stack n d name buf = .ok r) :
    Answer r := by
  induction n generalizing d name buf with
  | zero => cases h
  | succ n ih =>
    obtain ⟨_, rfl⟩ | ⟨t, _, hfit, hcase⟩ := followlink_eq_ok h
    · exact .inl rfl
    · obtain ⟨e, _, rfl⟩ | ⟨_, _, _, _, rfl⟩ | ⟨_, p, _, _, h⟩ := hcase
      · exact .inl rfl
      · exact .inr ⟨t, filled_cstring hfit, rfl⟩
      · exact ih h

def LinksTo (fs : FileSystem) (a b : CString) : Prop := fs.linkTarget a = some b

/-- The target found at a pathname is shorter than the buffer and, if it is to be followed, than
`MAXPATH`. -/
def Fits (fs : FileSystem) (bufsiz : Nat) (a : CString) : Prop :=
  ∀ t, fs.linkTarget a = some t →
    t.chars.length < bufsiz ∧ (fs.linkTarget t ≠ none → t.chars.length < maxpath)

/-- The array `pathname` of every call holds NULs. -/
def zeroed : Nat → Garbage := fun _ => ⟨List.replicate maxpath 0, List.length_replicate⟩

/-- The array `pathname` of every call holds no NUL. -/
def unterminated : Nat → Garbage := fun _ => ⟨List.replicate maxpath 1, List.length_replicate⟩

theorem reached_finite (fs : FileSystem) (a : CString) :
    {b | ReflTransGen (LinksTo fs) a b}.Finite := by
  have htargets := fs.links_finite.image fs.target
  have hnames := htargets.preimage (f := some) (Option.some_injective _).injOn
  refine (hnames.insert a).subset fun b hb => ?_
  obtain rfl | ⟨c, _, hcb⟩ := hb.cases_tail
  · exact .inl rfl
  · obtain ⟨_, file, _, hfile⟩ := FileSystem.linkTarget_eq_some.mp hcb
    exact .inr ⟨file, by simp [hfile], hfile⟩

/-- With no NUL in the arrays a call that has to go on reads past the end of its copy. -/
theorem followlink_unterminated {t' : CString} (h : fs.linkTarget name = some t)
    (ht : t.chars.length < buf.bytes) (hagain : fs.linkTarget t = some t') :
    followlink fs unterminated (n + 1) d name buf = .fault := by
  rw [followlink_again h ht hagain, copyName_unterminated (.inl ?_)]
  · rfl
  · simp [unterminated]

/-- Every target found along the links from `a` fits. -/
def FitsAlong (fs : FileSystem) (bufsiz : Nat) (a : CString) : Prop :=
  ∀ b, ReflTransGen (LinksTo fs) a b → Fits fs bufsiz b

theorem fitsAlong_of_none {bufsiz : Nat} (h : fs.linkTarget name = none) :
    FitsAlong fs bufsiz name := by
  refine Walk.within_iff.mpr ⟨fun t ht => ?_, fun t ht => ?_⟩ <;> simp [LinksTo, h] at ht

theorem fitsAlong_of_some {bufsiz : Nat} (h : fs.linkTarget name = some t)
    (hfit : t.chars.length < bufsiz) (hcopy : fs.linkTarget t ≠ none → t.chars.length < maxpath)
    (hrest : FitsAlong fs bufsiz t) : FitsAlong fs bufsiz name := by
  refine Walk.within_iff.mpr ⟨fun u hu => ?_, fun u hu => ?_⟩ <;>
    obtain rfl := Option.some.inj (h.symm.trans hu)
  · exact ⟨hfit, hcopy⟩
  · exact hrest

theorem ends_of_none (h : fs.linkTarget name = none) : Walk.Ends (LinksTo fs) name :=
  .intro fun t ht => by simp [LinksTo, h] at ht

theorem ends_of_some (h : fs.linkTarget name = some t) (hrest : Walk.Ends (LinksTo fs) t) :
    Walk.Ends (LinksTo fs) name :=
  .intro fun u hu => by rwa [← Option.some.inj (h.symm.trans hu)]

/-- With NULs in them a recursion that ends has gone along the links to an end. -/
theorem followlink_zeroed_ends {r : Followed} (hb : buf.bytes ≠ 0)
    (h : followlink fs zeroed n d name buf = .ok r) :
    Walk.Ends (LinksTo fs) name ∧ FitsAlong fs buf.bytes name := by
  induction n generalizing d name buf with
  | zero => cases h
  | succ n ih =>
    obtain ⟨hnone, _⟩ | ⟨t, ht, hfit, hcase⟩ := followlink_eq_ok h
    · have hnone := hnone.resolve_left hb
      exact ⟨ends_of_none hnone, fitsAlong_of_none hnone⟩
    · suffices hrest : (fs.linkTarget t ≠ none → t.chars.length < maxpath) ∧
          Walk.Ends (LinksTo fs) t ∧ FitsAlong fs buf.bytes t by
        obtain ⟨hcopy, hends, hfits⟩ := hrest
        exact ⟨ends_of_some ht hends, fitsAlong_of_some ht hfit hcopy hfits⟩
      obtain ⟨e, hf, _⟩ | ⟨dir, file, hf, hfile, _⟩ | ⟨t', p, _, hp, h⟩ := hcase
      · have hstop := FileSystem.linkTarget_error hf
        exact ⟨fun hlink => absurd hstop hlink, ends_of_none hstop, fitsAlong_of_none hstop⟩
      · have hstop := (FileSystem.linkTarget_ok hf).trans hfile
        exact ⟨fun hlink => absurd hstop hlink, ends_of_none hstop, fitsAlong_of_none hstop⟩
      · have hlt := copyName_lt hp
        rw [copyName_zeroed rfl hlt] at hp
        obtain rfl := Outcome.ok.inj hp
        have hrest := ih (by simpa using hb) h
        exact ⟨fun _ => hlt, by simpa using hrest⟩

/-- And if the links come to an end and the targets fit, so does the recursion. -/
theorem followlink_zeroed_of (hends : Walk.Ends (LinksTo fs) name)
    (hfits : FitsAlong fs buf.bytes name) :
    ∃ fuel r, followlink fs zeroed fuel d name buf = .ok r := by
  induction hends generalizing d buf with
  | intro name _ ih =>
    by_cases hnone : buf.bytes = 0 ∨ fs.linkTarget name = none
    · exact ⟨1, _, followlink_none hnone⟩
    · simp only [not_or, Option.ne_none_iff_exists'] at hnone
      obtain ⟨hb, t, ht⟩ := hnone
      obtain ⟨hfit, hcopy⟩ := hfits name .refl t ht
      cases hagain : fs.linkTarget t with
      | some t' =>
        have hrest : FitsAlong fs (filled buf t).bytes t := fun b hb => hfits b (.head ht hb)
        obtain ⟨fuel, r, hr⟩ := ih t ht (d := d + 1) hrest
        refine ⟨fuel + 1, r, ?_⟩
        rw [followlink_again ht hfit hagain, copyName_zeroed rfl (hcopy (by simp [hagain]))]
        exact hr
      | none =>
        cases hf : fs.find t with
        | error e => exact ⟨1, _, followlink_dangling ht hfit hf⟩
        | ok p => exact ⟨1, _, followlink_file ht hfit hf (FileSystem.linkTarget_ok hf ▸ hagain)⟩

/-- **Termination of `followlink`.** Whatever the uninitialized arrays hold, the recursion ends with
an answer exactly when the target of the link, if there is one, is shorter than the buffer and is
itself no link. If they happen to hold NULs, so that every copied name is terminated, it does exactly
when no cycle of links can be reached and every target on the way fits. -/
theorem followlink_returns_iff (fs : FileSystem) (pathname : CString) (buf : Block UInt8 1) :
    ((∀ stack, Returns fs stack pathname buf) ↔ buf.bytes = 0 ∨
      ∀ t, fs.linkTarget pathname = some t →
        t.chars.length < buf.bytes ∧ fs.linkTarget t = none) ∧
    (Returns fs zeroed pathname buf ↔ buf.bytes = 0 ∨
      ∀ a, ReflTransGen (LinksTo fs) pathname a →
        Fits fs buf.bytes a ∧ ¬ TransGen (LinksTo fs) a a) := by
  constructor
  · constructor
    · intro hall
      by_cases hb : buf.bytes = 0
      · exact .inl hb
      refine .inr fun t ht => ?_
      obtain ⟨fuel, r, hr, _⟩ := hall unterminated
      cases fuel with
      | zero => cases hr
      | succ fuel =>
        obtain ⟨hnone, _⟩ | ⟨u, hu, hfit, _⟩ := followlink_eq_ok hr
        · exact absurd (hnone.resolve_left hb) (by simp [ht])
        obtain rfl := Option.some.inj (ht.symm.trans hu)
        refine ⟨hfit, Option.eq_none_iff_forall_ne_some.mpr fun t' hagain => ?_⟩
        rw [followlink_unterminated ht hfit hagain] at hr
        cases hr
    · intro hcond stack
      suffices h : ∃ r, followlink fs stack 1 0 pathname buf = .ok r by
        obtain ⟨r, hr⟩ := h
        exact ⟨1, r, hr, followlink_answer hr⟩
      by_cases hnone : buf.bytes = 0 ∨ fs.linkTarget pathname = none
      · exact ⟨_, followlink_none hnone⟩
      simp only [not_or, Option.ne_none_iff_exists'] at hnone
      obtain ⟨hb, t, ht⟩ := hnone
      obtain ⟨hfit, hlast⟩ := hcond.resolve_left hb t ht
      cases hf : fs.find t with
      | error e => exact ⟨_, followlink_dangling ht hfit hf⟩
      | ok p => exact ⟨_, followlink_file ht hfit hf (FileSystem.linkTarget_ok hf ▸ hlast)⟩
  · have hcycles := Walk.ends_iff_no_cycle (reached_finite fs pathname)
    constructor
    · intro h
      obtain ⟨fuel, r, hr, _⟩ := h
      by_cases hb : buf.bytes = 0
      · exact .inl hb
      obtain ⟨hends, hfits⟩ := followlink_zeroed_ends hb hr
      exact .inr fun a ha => ⟨hfits a ha, hcycles.mp hends a ha⟩
    · intro hcond
      suffices h : ∃ fuel r, followlink fs zeroed fuel 0 pathname buf = .ok r by
        obtain ⟨fuel, r, hr⟩ := h
        exact ⟨fuel, r, hr, followlink_answer hr⟩
      obtain hb | hall := hcond
      · exact ⟨1, _, followlink_none (.inl hb)⟩
      · exact followlink_zeroed_of (hcycles.mpr fun a ha => (hall a ha).2)
          fun a ha => (hall a ha).1

/-! ## A link to itself -/

def nameA : CString := ⟨[97], by decide, by decide⟩

/-- A directory with nothing in it but a symbolic link `a` to `a`. -/
def selfLink : FileSystem where
  cwd := 0
  lookup _ path := if path.chars = [97] then .ok (0, 1) else .error "No such file or directory"
  target file := if file = 1 then some nameA else none
  links_finite := (Set.finite_singleton 1).subset fun file h => by
    by_contra hne
    simp_all
  lookup_absolute _ _ _ _ := rfl

/-- `followlink` on a link to itself goes on for ever, where `mutil.h` has -1 for an error. -/
theorem followlink_loops :
    (∀ fuel, followlink selfLink zeroed fuel 0 nameA (Block.alloc maxpath) = .hang) ∧
      ¬ Returns selfLink zeroed nameA (Block.alloc maxpath) := by
  have hself : selfLink.linkTarget nameA = some nameA := rfl
  have hhang : ∀ fuel d buf, buf.bytes = maxpath →
      followlink selfLink zeroed fuel d nameA buf = .hang := by
    intro fuel
    induction fuel with
    | zero => intros; rfl
    | succ fuel ih =>
      intro d buf hbuf
      have hfit : nameA.chars.length < buf.bytes := by rw [hbuf]; decide
      rw [followlink_again hself hfit hself, copyName_zeroed rfl (by decide)]
      exact ih (d + 1) (filled buf nameA) hbuf
  refine ⟨fun fuel => hhang fuel 0 _ rfl, fun h => ?_⟩
  obtain ⟨fuel, r, hr, _⟩ := h
  rw [hhang fuel 0 _ rfl] at hr
  cases hr

end Mikelibc.Follow
