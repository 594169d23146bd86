import Mikelibc.Lib.Memory

/-! # `find_bins` of `bins.c`

What `opendir` and `readdir` deliver and what `stat` says of a pathname is given
beforehand. The bit test is meant for the three execute bits, but `&` binds stronger than
`|`, and what is tested is never 0. Debug messages are left out. -/
namespace Mikelibc.Bins
open CSem

def maxpath : Nat := 4096

/-! ## The code -/

inductive DType where
  | unknown
  | fifo
  | chr
  | dir
  | blk
  | reg
  | lnk
  | sock
  | wht
  deriving DecidableEq

/-- `struct dirent`, as far as it is looked at. -/
structure Dirent where
  dType : DType
  dName : CString

/-- A regular file or a symbolic link. -/
def Dirent.IsFile (entry : Dirent) : Prop := entry.dType = .reg ∨ entry.dType = .lnk

instance (entry : Dirent) : Decidable entry.IsFile := inferInstanceAs (Decidable (_ ∨ _))

/-- The entries of a directory, if `opendir` succeeds, and for a pathname its `st_mode` or the text
of the error. -/
structure System where
  opendir : CString → Option (List Dirent)
  stat : List UInt8 → Except String UInt32

def ixusr : UInt32 := 0o100
def ixgrp : UInt32 := 0o010
def ixoth : UInt32 := 0o001

/-- What has been printed, each string on a line of its own on `stdout`. -/
structure Printed where
  stdout : List (List UInt8)
  stderr : List String

def pathOf (dirpath : CString) (entry : Dirent) : List UInt8 :=
  dirpath.chars ++ '/'.toUInt8 :: entry.dName.chars

/-- `sprintf(path, "%s/%s", dirpath, entry->d_name)`, with the terminator, into `MAXPATH`
characters. -/
def sprintfPath (dirpath : CString) (entry : Dirent) : Outcome (List UInt8) := do
  Outcome.require ((pathOf dirpath entry).length + 1 ≤ maxpath)
  return pathOf dirpath entry

/-- One round of the loop. -/
def visit (sys : System) (dirpath : CString) (full : Int) (p : Printed) (entry : Dirent) :
    Outcome Printed :=
  if entry.IsFile then do
    let path ← sprintfPath dirpath entry
    match sys.stat path with
    | .error e => return { p with stderr := p.stderr ++ ["stat: " ++ e ++ "\n"] }
    | .ok stMode =>
      if stMode &&& ixusr ||| ixgrp ||| ixoth ≠ 0 then
        return { p with stdout := p.stdout ++ [if full ≠ 0 then path else entry.dName.chars] }
      else return p
  else return p

/-- The loop, until `readdir` returns `NULL`. -/
def readEntries (sys : System) (dirpath : CString) (full : Int) :
    List Dirent → Printed → Outcome Printed
  | [], p => return p
  | entry :: entries, p => do
    let p ← visit sys dirpath full p entry
    readEntries sys dirpath full entries p

def findBins (sys : System) (dirpath : Option CString) (full : Int) : Outcome Printed := do
  match dirpath with
  | none => .abort
  | some dirpath =>
    match sys.opendir dirpath with
    | none => return ⟨[], []⟩
    | some entries => readEntries sys dirpath full entries ⟨[], []⟩

/-! ## What it is for -/

/-- One of the three execute bits is set. -/
def Executable (stMode : UInt32) : Prop :=
  stMode &&& ixusr ≠ 0 ∨ stMode &&& ixgrp ≠ 0 ∨ stMode &&& ixoth ≠ 0

instance (stMode : UInt32) : Decidable (Executable stMode) := inferInstanceAs (Decidable (_ ∨ _))

/-- The mode of a regular file or symbolic link, if `stat` succeeds. -/
def System.mode (sys : System) (dirpath : CString) (entry : Dirent) : Option UInt32 :=
  if entry.IsFile then (sys.stat (pathOf dirpath entry)).toOption else none

def System.executables (sys : System) (dirpath : CString) (entries : List Dirent) : List Dirent :=
  entries.filter fun entry => (sys.mode dirpath entry).any (Executable ·)

/-- The entries that `stat` knows. -/
def System.known (sys : System) (dirpath : CString) (entries : List Dirent) : List Dirent :=
  entries.filter fun entry => (sys.mode dirpath entry).isSome

/-- The entries of a directory; none where it cannot be opened. -/
def System.entries (sys : System) (dirpath : CString) : List Dirent :=
  (sys.opendir dirpath).getD []

def shown (dirpath : CString) (full : Int) (entry : Dirent) : List UInt8 :=
  if full ≠ 0 then pathOf dirpath entry else entry.dName.chars

/-- The pathname and its terminator fit into `path`. -/
def PathFits (dirpath : CString) (entry : Dirent) : Prop :=
  (pathOf dirpath entry).length < maxpath

variable {sys : System} {dirpath : CString} {full : Int} {entry : Dirent} {entries : List Dirent}
  {p q : Printed}

/-! ## One entry -/

/-- Whatever the mode is: `S_IXGRP` and `S_IXOTH` are always part of what is tested. -/
theorem bits_ne_zero (stMode : UInt32) : stMode &&& ixusr ||| ixgrp ||| ixoth ≠ 0 := by
  intro h
  have hoth := (UInt32.or_eq_zero_iff.mp h).2
  exact absurd hoth (by decide)

theorem sprintfPath_of (h : PathFits dirpath entry) :
    sprintfPath dirpath entry = .ok (pathOf dirpath entry) := by
  have hfits : (pathOf dirpath entry).length + 1 ≤ maxpath := h
  rw [sprintfPath, Outcome.require_of hfits]
  rfl

theorem sprintfPath_past (h : ¬ PathFits dirpath entry) : sprintfPath dirpath entry = .fault := by
  have hlong : ¬ (pathOf dirpath entry).length + 1 ≤ maxpath := h
  rw [sprintfPath, Outcome.require_of_not hlong]
  rfl

/-- The line on `stderr` for an entry that `stat` fails for. -/
def statError (sys : System) (dirpath : CString) (entry : Dirent) : List String :=
  if entry.IsFile then
    match sys.stat (pathOf dirpath entry) with
    | .error e => ["stat: " ++ e ++ "\n"]
    | .ok _ => []
  else []

theorem visit_of (h : entry.IsFile → PathFits dirpath entry) :
    visit sys dirpath full p entry =
      .ok ⟨p.stdout ++ (sys.known dirpath [entry]).map (shown dirpath full),
        p.stderr ++ statError sys dirpath entry⟩ := by
  unfold visit
  by_cases hfile : entry.IsFile
  · rw [if_pos hfile, sprintfPath_of (h hfile), Outcome.ok_bind]
    cases hstat : sys.stat (pathOf dirpath entry) with
    | error e =>
      simp [System.known, System.mode, statError, hfile, hstat, Except.toOption]
    | ok stMode =>
      simp only [if_pos (bits_ne_zero stMode)]
      simp [System.known, System.mode, statError, hfile, hstat, shown, Except.toOption]
  · rw [if_neg hfile]
    simp [System.known, System.mode, statError, hfile]

theorem visit_past (hfile : entry.IsFile) (h : ¬ PathFits dirpath entry) :
    visit sys dirpath full p entry = .fault := by
  unfold visit
  rw [if_pos hfile, sprintfPath_past h]
  rfl

/-! ## The loop -/

/-- The loop prints every regular file and symbolic link that `stat` knows. -/
theorem readEntries_of :
    ∀ (entries : List Dirent) (p : Printed),
      (∀ entry ∈ entries, entry.IsFile → PathFits dirpath entry) →
      readEntries sys dirpath full entries p =
        .ok ⟨p.stdout ++ (sys.known dirpath entries).map (shown dirpath full),
          p.stderr ++ entries.flatMap (statError sys dirpath)⟩ := by
  intro entries
  induction entries with
  | nil => intro p _; simp [readEntries, System.known]
  | cons entry entries ih =>
    intro p h
    have hknown : sys.known dirpath (entry :: entries) =
        sys.known dirpath [entry] ++ sys.known dirpath entries :=
      List.filter_append [entry] entries
    rw [readEntries, visit_of (h entry List.mem_cons_self), Outcome.ok_bind,
      ih _ fun e he => h e (List.mem_cons_of_mem entry he), hknown]
    simp only [List.map_append, List.append_assoc, List.flatMap_cons]

theorem readEntries_past :
    ∀ (entries : List Dirent) (p : Printed), (∃ entry ∈ entries, entry.IsFile ∧
      ¬ PathFits dirpath entry) → readEntries sys dirpath full entries p = .fault := by
  intro entries
  induction entries with
  | nil => rintro p ⟨_, h, _⟩; cases h
  | cons entry entries ih =>
    rintro p ⟨long, hmem, hfile, hlong⟩
    rw [readEntries]
    by_cases hfits : entry.IsFile → PathFits dirpath entry
    · rw [visit_of hfits, Outcome.ok_bind]
      refine ih _ ⟨long, ?_, hfile, hlong⟩
      exact (List.mem_cons.mp hmem).resolve_left fun h => hlong (h ▸ hfits (h ▸ hfile))
    · obtain ⟨hfile', hlong'⟩ := Classical.not_imp.mp hfits
      rw [visit_past hfile' hlong']
      rfl

/-! ## The call -/

theorem mode_eq_some {stMode : UInt32} : sys.mode dirpath entry = some stMode ↔
    entry.IsFile ∧ sys.stat (pathOf dirpath entry) = .ok stMode := by
  unfold System.mode
  cases sys.stat (pathOf dirpath entry) <;> simp [Except.toOption]

theorem findBins_eq (sys : System) (dirpath : CString) (full : Int) :
    findBins sys (some dirpath) full =
      readEntries sys dirpath full (sys.entries dirpath) ⟨[], []⟩ := by
  unfold findBins System.entries
  cases hopen : sys.opendir dirpath <;> simp only [hopen] <;> rfl

/-- As many of the entries are executables as are known: then each of these is an executable. -/
theorem length_known_le_iff :
    (sys.known dirpath entries).length ≤ (sys.executables dirpath entries).length ↔
      ∀ entry ∈ entries, ∀ stMode, sys.mode dirpath entry = some stMode → Executable stMode := by
  have hsub : sys.executables dirpath entries =
      (sys.known dirpath entries).filter fun entry =>
        (sys.mode dirpath entry).any (Executable ·) := by
    unfold System.executables System.known
    rw [List.filter_filter]
    refine List.filter_congr fun entry _ => ?_
    cases sys.mode dirpath entry <;> simp
  rw [hsub]
  constructor
  · intro h entry hmem stMode hmode
    have heq := List.filter_sublist.eq_of_length_le h
    have hknown : entry ∈ sys.known dirpath entries :=
      List.mem_filter.mpr ⟨hmem, by rw [hmode]; rfl⟩
    have hexec := List.filter_eq_self.mp heq entry hknown
    simpa [hmode] using hexec
  · intro h
    refine Nat.le_of_eq (congrArg _ (List.filter_eq_self.mpr fun entry hentry => ?_)).symm
    obtain ⟨hmem, hsome⟩ := List.mem_filter.mp hentry
    obtain ⟨stMode, hmode⟩ := Option.isSome_iff_exists.mp hsome
    simpa only [hmode, Option.any_some, decide_eq_true_eq] using h entry hmem stMode hmode

/-- The call prints exactly the executables of the directory. -/
def ListsExecutables (sys : System) (dirpath : CString) (full : Int) : Prop :=
  ∃ printed, findBins sys (some dirpath) full = .ok printed ∧
    printed.stdout = (sys.executables dirpath (sys.entries dirpath)).map (shown dirpath full)

/-- **What `find_bins` lists**: exactly the executables if every pathname fits into `path` and
every file that `stat` knows is an executable, and otherwise not. -/
theorem findBins_executables_iff (sys : System) (dirpath : CString) (full : Int) :
    ListsExecutables sys dirpath full ↔ ∀ entry ∈ sys.entries dirpath, entry.IsFile →
      PathFits dirpath entry ∧
        ∀ stMode, sys.stat (pathOf dirpath entry) = .ok stMode → Executable stMode := by
  unfold ListsExecutables
  rw [findBins_eq]
  constructor
  · rintro ⟨printed, hrun, hout⟩ entry hmem hfile
    have hfits : ∀ entry ∈ sys.entries dirpath, entry.IsFile → PathFits dirpath entry := by
      intro entry hmem hfile
      by_contra hlong
      rw [readEntries_past _ _ ⟨entry, hmem, hfile, hlong⟩] at hrun
      cases hrun
    rw [readEntries_of _ _ hfits] at hrun
    cases hrun
    have hlen := congrArg List.length hout
    simp only [List.nil_append, List.length_map] at hlen
    have hexec := length_known_le_iff.mp (Nat.le_of_eq hlen) entry hmem
    exact ⟨hfits entry hmem hfile,
      fun stMode hstat => hexec stMode (mode_eq_some.mpr ⟨hfile, hstat⟩)⟩
  · intro h
    refine ⟨_, readEntries_of _ _ fun entry hmem hfile => (h entry hmem hfile).1, ?_⟩
    have hsub : (sys.executables dirpath (sys.entries dirpath)).Sublist
        (sys.known dirpath (sys.entries dirpath)) :=
      List.monotone_filter_right _ fun entry hexec => Option.isSome_of_any hexec
    have hall : sys.executables dirpath (sys.entries dirpath) =
        sys.known dirpath (sys.entries dirpath) := by
      refine hsub.eq_of_length_le (length_known_le_iff.mpr fun entry hmem stMode hmode => ?_)
      obtain ⟨hfile, hstat⟩ := mode_eq_some.mp hmode
      exact (h entry hmem hfile).2 stMode hstat
    rw [hall, List.nil_append]

/-- A directory with one file, `README`, which nobody may execute. -/
def testSystem : System where
  opendir _ := some [⟨.reg, ⟨[82, 69, 65, 68, 77, 69], by decide, by decide⟩⟩]
  stat _ := .ok 0o100644

/-- In `/bin` it is printed all the same. -/
theorem findBins_lists_readme : ¬ ∀ (sys : System) (dirpath : CString) (full : Int),
    ListsExecutables sys dirpath full := by
  intro h
  obtain ⟨printed, hrun, hout⟩ := h testSystem ⟨[47, 98, 105, 110], by decide, by decide⟩ 0
  cases hrun
  exact absurd hout (by decide)

end Mikelibc.Bins
