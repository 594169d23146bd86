import Mikelibc.Follow.Ends

/-! # Does `followlink` find the file at the end?

A chain of links leads from file to file: each target is used from the directory that
holds the link. The code uses every target from the working directory instead. -/
namespace Mikelibc.Follow
open CSem Relation

variable {fs : FileSystem} {stack : Nat → Garbage} {n d dir link final : Nat}
  {name path t : CString} {buf : Block UInt8 1}

/-- `link`, which sits in `dir`, starts a chain of symbolic links that ends in the file `final`, and
what `P` says holds of every link's directory and target. -/
inductive Chain (fs : FileSystem) (P : Nat → CString → Prop) : Nat → Nat → Nat → Prop
  | last {dir link t dir' final} (ht : fs.target link = some t) (hP : P dir t)
      (hnext : fs.lookup dir t = .ok (dir', final)) (hfile : fs.target final = none) :
      Chain fs P dir link final
  | more {dir link t dir' link' final} (ht : fs.target link = some t) (hP : P dir t)
      (hnext : fs.lookup dir t = .ok (dir', link')) (hmore : Chain fs P dir' link' final) :
      Chain fs P dir link final

/-- A target shorter than `bufsiz` and `MAXPATH`. -/
def Short (bufsiz : Nat) (t : CString) : Prop := t.chars.length < bufsiz ∧ t.chars.length < maxpath

/-- A target that stands for the same file from the working directory: the link is there, or the
target is absolute. -/
def Local (fs : FileSystem) (dir : Nat) (t : CString) : Prop :=
  dir = fs.cwd ∨ t.chars.head? = some '/'.toUInt8

/-- The code's result: a length, and in the buffer a path of that length which, used from the working
directory, stands for `final`. -/
def Resolves (fs : FileSystem) (stack : Nat → Garbage) (pathname : CString) (buf : Block UInt8 1)
    (final : Nat) : Prop :=
  ∃ fuel r path dir, followlink fs stack fuel 0 pathname buf = .ok r ∧ 0 ≤ r.value ∧
    r.buf.cstring = .ok path ∧ r.value = path.chars.length ∧ fs.find path = .ok (dir, final)

theorem Chain.final_none {P : Nat → CString → Prop} (h : Chain fs P dir link final) :
    fs.target final = none := by
  induction h with
  | last _ _ _ hfile => exact hfile
  | more _ _ _ _ ih => exact ih

theorem Chain.first {P : Nat → CString → Prop} (h : Chain fs P dir link final) :
    ∃ t, fs.target link = some t ∧ P dir t := by
  cases h with
  | last ht hP => exact ⟨_, ht, hP⟩
  | more ht hP => exact ⟨_, ht, hP⟩

theorem find_of_local {p : Except String (Nat × Nat)} (hlocal : Local fs dir t)
    (h : fs.lookup dir t = p) : fs.find t = p := by
  obtain rfl | habs := hlocal
  · exact h
  · rw [← h]
    exact fs.lookup_absolute _ _ t habs

/-! ## Along the names that the code uses -/

/-- The links, all used from the working directory, lead to a name of `final`, and every target on
the way fits. -/
def Reaches (fs : FileSystem) (bufsiz : Nat) (name : CString) (final : Nat) : Prop :=
  (∃ path dir, TransGen (LinksTo fs) name path ∧ fs.find path = .ok (dir, final)) ∧
    FitsAlong fs bufsiz name

/-- A result that is not -1 is a name the links lead to. -/
theorem followlink_zeroed_path {r : Followed} (h : followlink fs zeroed n d name buf = .ok r)
    (hvalue : 0 ≤ r.value) :
    ∃ path, TransGen (LinksTo fs) name path ∧ r.buf.cstring = .ok path := by
  induction n generalizing d name buf with
  | zero => cases h
  | succ n ih =>
    obtain ⟨_, rfl⟩ | ⟨t, ht, hfit, hcase⟩ := followlink_eq_ok h
    · exact absurd hvalue (by simp)
    · obtain ⟨e, _, rfl⟩ | ⟨_, _, _, _, rfl⟩ | ⟨t', p, _, hp, h⟩ := hcase
      · exact absurd hvalue (by simp)
      · exact ⟨t, .single ht, filled_cstring hfit⟩
      · rw [copyName_zeroed rfl (copyName_lt hp)] at hp
        obtain rfl := Outcome.ok.inj hp
        obtain ⟨path, hpath, hr⟩ := ih h
        exact ⟨path, .head ht hpath, hr⟩

/-- Where the links lead to a file, the code leaves that name of it in the buffer. -/
theorem followlink_zeroed_file (h : TransGen (LinksTo fs) name path)
    (hpath : fs.find path = .ok (dir, final)) (hfile : fs.target final = none)
    (hfits : FitsAlong fs buf.bytes name) :
    ∃ fuel r, followlink fs zeroed fuel d name buf = .ok r ∧ r.value = path.chars.length ∧
      r.buf.cstring = .ok path := by
  induction h using TransGen.head_induction_on generalizing d buf with
  | single ht =>
    have hfit := (hfits _ .refl path ht).1
    exact ⟨1, _, followlink_file ht hfit hpath hfile, rfl, filled_cstring hfit⟩
  | @head name t ht hrest ih =>
    obtain ⟨hfit, hcopy⟩ := hfits name .refl t ht
    obtain ⟨t', hagain, _⟩ := TransGen.head'_iff.mp hrest
    have hfits' : FitsAlong fs (filled buf t).bytes t := fun a ha => hfits a (.head ht ha)
    obtain ⟨fuel, r, hr, hvalue⟩ := ih (d := d + 1) hfits'
    refine ⟨fuel + 1, r, ?_, hvalue⟩
    rw [followlink_again ht hfit hagain, copyName_zeroed rfl (hcopy ?_)]
    · exact hr
    · rw [show fs.linkTarget t = some t' from hagain]
      exact Option.some_ne_none t'

theorem resolves_zeroed_iff (hfile : fs.target final = none) (hb : buf.bytes ≠ 0) :
    Resolves fs zeroed name buf final ↔ Reaches fs buf.bytes name final := by
  constructor
  · intro h
    obtain ⟨fuel, r, path, dir, hr, hvalue, hpath, _, hfind⟩ := h
    obtain ⟨path', hwalk, hpath'⟩ := followlink_zeroed_path hr hvalue
    obtain rfl := Outcome.ok.inj (hpath.symm.trans hpath')
    exact ⟨⟨path, dir, hwalk, hfind⟩, (followlink_zeroed_ends hb hr).2⟩
  · intro h
    obtain ⟨⟨path, dir, hwalk, hfind⟩, hfits⟩ := h
    obtain ⟨fuel, r, hr, hvalue, hpath⟩ := followlink_zeroed_file hwalk hfind hfile hfits
    exact ⟨fuel, r, path, dir, hr, by omega, hpath, hvalue, hfind⟩

/-- A chain within the working directory, or of absolute targets, is one that the code follows. -/
theorem Chain.reaches {bufsiz : Nat}
    (h : Chain fs (fun dir t => Short bufsiz t ∧ Local fs dir t) dir link final)
    (hname : fs.find name = .ok (dir, link)) : Reaches fs bufsiz name final := by
  induction h generalizing name with
  | @last dir link t dir' final ht hP hnext hfile =>
    have hto : fs.linkTarget name = some t := (FileSystem.linkTarget_ok hname).trans ht
    have hfind := find_of_local hP.2 hnext
    have hstop := (FileSystem.linkTarget_ok hfind).trans hfile
    exact ⟨⟨t, dir', .single hto, hfind⟩,
      fitsAlong_of_some hto hP.1.1 (fun _ => hP.1.2) (fitsAlong_of_none hstop)⟩
  | @more dir link t dir' link' final ht hP hnext _ ih =>
    have hto : fs.linkTarget name = some t := (FileSystem.linkTarget_ok hname).trans ht
    obtain ⟨⟨path, dir'', hwalk, hfind⟩, hfits⟩ := ih (find_of_local hP.2 hnext)
    exact ⟨⟨path, dir'', .head hto hwalk, hfind⟩,
      fitsAlong_of_some hto hP.1.1 (fun _ => hP.1.2) hfits⟩

/-- **What `followlink` finds.** From a chain of short targets, whatever the uninitialized arrays
hold, the code gets to the file at the end exactly when the first target already stands for it,
used from the working directory. If the arrays happen to hold NULs, it does exactly when the links,
all used from the working directory, lead there; and they do if the links of the chain are there or
have absolute targets. -/
theorem followlink_resolves_iff (fs : FileSystem) (pathname : CString) (buf : Block UInt8 1)
    (dir link final : Nat) (hname : fs.find pathname = .ok (dir, link))
    (hchain : Chain fs (fun _ t => Short buf.bytes t) dir link final) :
    ((∀ stack, Resolves fs stack pathname buf final) ↔
      ∃ t d, fs.target link = some t ∧ fs.find t = .ok (d, final)) ∧
    (Resolves fs zeroed pathname buf final ↔ Reaches fs buf.bytes pathname final) ∧
    (Chain fs (fun dir t => Short buf.bytes t ∧ Local fs dir t) dir link final →
      Reaches fs buf.bytes pathname final) := by
  obtain ⟨t, hlink, hshort⟩ := hchain.first
  have ht : fs.linkTarget pathname = some t := (FileSystem.linkTarget_ok hname).trans hlink
  have hb : buf.bytes ≠ 0 := by have := hshort.1; omega
  refine ⟨⟨fun hall => ?_, fun hcond stack => ?_⟩,
    resolves_zeroed_iff hchain.final_none hb, fun hlocal => hlocal.reaches hname⟩
  · obtain ⟨fuel, r, path, d, hr, hvalue, hpath, _, hfind⟩ := hall unterminated
    cases fuel with
    | zero => cases hr
    | succ fuel =>
      obtain ⟨_, rfl⟩ | ⟨u, hu, hfit, hcase⟩ := followlink_eq_ok hr
      · exact absurd hvalue (by simp)
      obtain rfl := Option.some.inj (ht.symm.trans hu)
      obtain ⟨e, _, rfl⟩ | ⟨_, _, _, _, rfl⟩ | ⟨t', p, hagain, _, _⟩ := hcase
      · exact absurd hvalue (by simp)
      · obtain rfl := Outcome.ok.inj ((filled_cstring hfit).symm.trans hpath)
        exact ⟨t, d, hlink, hfind⟩
      · rw [followlink_unterminated ht hfit hagain] at hr
        cases hr
  · obtain ⟨u, d, hu, hfind⟩ := hcond
    obtain rfl := Option.some.inj (hlink.symm.trans hu)
    exact ⟨1, _, t, d, followlink_file ht hshort.1 hfind hchain.final_none, by simp,
      filled_cstring hshort.1, rfl, hfind⟩

def dotLink : CString := ⟨[46, 47, 108, 105, 110, 107], by decide, by decide⟩

def dotTarget : CString := ⟨[46, 47, 116, 97, 114, 103, 101, 116], by decide, by decide⟩

def dotAgain : CString := ⟨[46, 47, 97, 103, 97, 105, 110], by decide, by decide⟩

/-- A working directory with the link of the test, `./link` to the file `./target`, and a link
`./again` to `./link`. -/
def testDirectory : FileSystem where
  cwd := 0
  lookup _ path :=
    if path.chars = dotLink.chars then .ok (0, 1)
    else if path.chars = dotTarget.chars then .ok (0, 2)
    else if path.chars = dotAgain.chars then .ok (0, 3)
    else .error "No such file or directory"
  target file := if file = 1 then some dotTarget else if file = 3 then some dotLink else none
  links_finite := (Set.toFinite {1, 3}).subset fun file h => by
    by_contra hne
    simp_all
  lookup_absolute _ _ _ _ := rfl

/-- One link in the working directory is followed whatever the arrays hold, as the test has it; a
chain of two is if they hold NULs. -/
theorem followlink_resolves_test :
    (testDirectory.find dotLink = .ok (0, 1) ∧
      ∀ stack, Resolves testDirectory stack dotLink (Block.alloc maxpath) 2) ∧
    testDirectory.find dotAgain = .ok (0, 3) ∧
    Resolves testDirectory zeroed dotAgain (Block.alloc maxpath) 2 ∧
    ¬ ∀ stack, Resolves testDirectory stack dotAgain (Block.alloc maxpath) 2 := by
  have hchain : Chain testDirectory (fun dir t => Short maxpath t ∧ Local testDirectory dir t) 0 3 2 :=
    .more (t := dotLink) rfl ⟨⟨by decide, by decide⟩, .inl rfl⟩
      (show testDirectory.lookup 0 dotLink = .ok (0, 1) from rfl)
      (.last (t := dotTarget) rfl ⟨⟨by decide, by decide⟩, .inl rfl⟩
        (show testDirectory.lookup 0 dotTarget = .ok (0, 2) from rfl) rfl)
  obtain ⟨hany, hzeroed, hreaches⟩ := followlink_resolves_iff testDirectory dotAgain
    (Block.alloc maxpath) 0 3 2 rfl
    (.more (t := dotLink) rfl ⟨by decide, by decide⟩
      (show testDirectory.lookup 0 dotLink = .ok (0, 1) from rfl)
      (.last (t := dotTarget) rfl ⟨by decide, by decide⟩
        (show testDirectory.lookup 0 dotTarget = .ok (0, 2) from rfl) rfl))
  refine ⟨⟨rfl, ?_⟩, rfl, hzeroed.mpr (hreaches hchain), fun hall => ?_⟩
  · exact (followlink_resolves_iff testDirectory dotLink (Block.alloc maxpath) 0 1 2 rfl
      (.last (t := dotTarget) rfl ⟨by decide, by decide⟩
        (show testDirectory.lookup 0 dotTarget = .ok (0, 2) from rfl) rfl)).1.mpr
      ⟨dotTarget, 0, rfl, rfl⟩
  · obtain ⟨t, d, ht, hfind⟩ := hany.mp hall
    cases ht
    cases hfind

/-! ## A link in another directory -/

def nameDL : CString := ⟨[100, 47, 108], by decide, by decide⟩

def nameX : CString := ⟨[120], by decide, by decide⟩

/-- In directory 1, which is `d`, there is a file `x` and a symbolic link `l` to `x`. -/
def elsewhere : FileSystem where
  cwd := 0
  lookup dir path :=
    if path.chars = nameDL.chars ∧ dir = 0 then .ok (1, 2)
    else if path.chars = nameX.chars ∧ dir = 1 then .ok (1, 3)
    else .error "No such file or directory"
  target file := if file = 2 then some nameX else none
  links_finite := (Set.finite_singleton 2).subset fun file h => by
    by_contra hne
    simp_all
  lookup_absolute dir dir' path habs := by
    have hslash : ∀ name : CString, name.chars.head? ≠ some '/'.toUInt8 →
        path.chars ≠ name.chars := fun name hne heq => hne (heq ▸ habs)
    simp only [hslash nameDL (by decide), hslash nameX (by decide), false_and, if_false]

/-- From `d/l` the code looks for `x` in the working directory and returns -1. -/
theorem followlink_not_rebased :
    (elsewhere.find nameDL = .ok (1, 2) ∧ Chain elsewhere (fun _ t => Short maxpath t) 1 2 3) ∧
    (∀ stack, followlink elsewhere stack 1 0 nameDL (Block.alloc maxpath) =
      .ok ⟨-1, filled (Block.alloc maxpath) nameX, ["stat: No such file or directory\n"]⟩) ∧
    ∀ stack, ¬ Resolves elsewhere stack nameDL (Block.alloc maxpath) 3 := by
  have hcall : ∀ fuel stack, followlink elsewhere stack (fuel + 1) 0 nameDL (Block.alloc maxpath) =
      .ok ⟨-1, filled (Block.alloc maxpath) nameX, ["stat: No such file or directory\n"]⟩ := by
    have hfit : nameX.chars.length < maxpath := by decide
    intro fuel stack
    rw [followlink_dangling (t := nameX) (e := "No such file or directory") rfl hfit rfl]
    rfl
  have hnext : elsewhere.lookup 1 nameX = .ok (1, 3) := rfl
  refine ⟨⟨rfl, .last (t := nameX) rfl ⟨by decide, by decide⟩ hnext rfl⟩,
    hcall 0, fun stack h => ?_⟩
  obtain ⟨fuel, r, path, dir, hr, hvalue, _⟩ := h
  cases fuel with
  | zero => cases hr
  | succ fuel =>
    obtain rfl := Outcome.ok.inj ((hcall fuel stack).symm.trans hr)
    exact absurd hvalue (by simp)

end Mikelibc.Follow
