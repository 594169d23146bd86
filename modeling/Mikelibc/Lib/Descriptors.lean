import Mathlib.Logic.Function.Basic

/-! # Tables of open descriptors

A process names its open files by numbers, and a new descriptor gets the lowest
number that is free. A pipe has two ends, which are opened together. -/
namespace CSem

variable {α : Type}

/-- The open files by number, and the limit for new numbers. -/
structure Table (α : Type) where
  limit : Nat
  file : Nat → Option α

structure Ends where
  read : Nat
  write : Nat

/-- Something that was open before, or an end of one of the pipes that were made since. -/
inductive File (α : Type)
  | other (a : α)
  | readEnd (pipe : Nat)
  | writeEnd (pipe : Nat)

namespace Table

/-- What an `int` stands for as a descriptor. -/
def lookup (t : Table α) : Int → Option α
  | .ofNat n => t.file n
  | .negSucc _ => none

def lowestFree (t : Table α) : Option Nat := (List.range t.limit).find? fun n => (t.file n).isNone

def set (t : Table α) (n : Nat) (a : α) : Table α :=
  { t with file := Function.update t.file n (some a) }

/-- Open a file at the lowest free number. -/
def alloc (t : Table α) (a : α) : Option (Nat × Table α) :=
  t.lowestFree.map fun n => (n, t.set n a)

/-- `close`, which changes nothing when the descriptor is not open. -/
def close (t : Table α) (n : Nat) : Table α := { t with file := Function.update t.file n none }

/-- `dup`, which fails when the descriptor is not open. -/
def dup (t : Table α) (n : Nat) : Option (Nat × Table α) := (t.file n).bind t.alloc

/-- `pipe`, for the pipe with this number; it fails when there are not two free numbers. -/
def pipe (t : Table (File α)) (p : Nat) : Option (Ends × Table (File α)) := do
  let (read, t) ← t.alloc (.readEnd p)
  let (write, t) ← t.alloc (.writeEnd p)
  return (⟨read, write⟩, t)

/-- The table before any of the pipes are made. -/
def before (t : Table α) : Table (File α) := ⟨t.limit, fun n => (t.file n).map .other⟩

def map {β : Type} (f : α → β) (t : Table α) : Table β := ⟨t.limit, fun n => (t.file n).map f⟩

@[simp] theorem file_map {β : Type} (f : α → β) (t : Table α) (n : Nat) :
    (t.map f).file n = (t.file n).map f := rfl

@[simp] theorem limit_set (t : Table α) (n : Nat) (a : α) : (t.set n a).limit = t.limit := rfl
@[simp] theorem limit_close (t : Table α) (n : Nat) : (t.close n).limit = t.limit := rfl

@[simp] theorem lookup_natCast (t : Table α) (n : Nat) : t.lookup n = t.file n := rfl

theorem file_set (t : Table α) (n m : Nat) (a : α) :
    (t.set n a).file m = if m = n then some a else t.file m := Function.update_apply _ _ _ _

theorem file_close (t : Table α) (n m : Nat) :
    (t.close n).file m = if m = n then none else t.file m := Function.update_apply _ _ _ _

theorem file_close_of_ne (t : Table α) {n m : Nat} (h : m ≠ n) : (t.close n).file m = t.file m :=
  Function.update_of_ne h _ _

theorem file_of_close {t : Table α} {n m : Nat} {a : α} (h : (t.close n).file m = some a) :
    t.file m = some a := by
  rw [file_close] at h
  split at h
  · cases h
  · exact h

@[simp] theorem file_before_eq_none {t : Table α} {n : Nat} :
    t.before.file n = none ↔ t.file n = none := Option.map_eq_none_iff

theorem file_before_ne_readEnd {t : Table α} {n p : Nat} :
    t.before.file n ≠ some (.readEnd p) := by
  intro h
  obtain ⟨_, _, hother⟩ := Option.map_eq_some_iff.mp h
  cases hother

theorem set_close (t : Table α) (n : Nat) (a : α) : (t.close n).set n a = t.set n a := by
  simp [set, close]

theorem lowestFree_eq_some {t : Table α} {n : Nat} :
    t.lowestFree = some n ↔ n < t.limit ∧ t.file n = none ∧ ∀ m < n, t.file m ≠ none := by
  rw [lowestFree, List.find?_range_eq_some]
  simp only [List.mem_range, Option.isNone_iff_eq_none, Bool.not_eq_true',
    Option.isNone_eq_false_iff, Option.isSome_iff_ne_none]
  exact and_left_comm

theorem alloc_eq_some {t u : Table α} {a : α} {n : Nat} :
    t.alloc a = some (n, u) ↔ t.lowestFree = some n ∧ u = t.set n a := by
  rw [alloc, Option.map_eq_some_iff]
  constructor
  · rintro ⟨m, hm, heq⟩
    cases heq
    exact ⟨hm, rfl⟩
  · rintro ⟨hn, rfl⟩
    exact ⟨n, hn, rfl⟩

theorem dup_lowestFree {t : Table α} {n fd : Nat} {a : α} (hn : t.lowestFree = some n)
    (hfd : t.file fd = some a) : t.dup fd = some (n, t.set n a) := by
  rw [dup, hfd, Option.bind_some, alloc_eq_some]
  exact ⟨hn, rfl⟩

/-! ## Pipes -/

/-- The outcome of a `pipe` that succeeds: the write end comes after the read end, and every other
number below it was taken. -/
structure Piped (t : Table (File α)) (p : Nat) (ends : Ends) (u : Table (File α)) : Prop where
  lt : ends.read < ends.write
  limit : ends.write < t.limit
  read : t.file ends.read = none
  write : t.file ends.write = none
  taken : ∀ m < ends.write, m ≠ ends.read → t.file m ≠ none
  after : u = (t.set ends.read (.readEnd p)).set ends.write (.writeEnd p)

theorem pipe_spec {t u : Table (File α)} {p : Nat} {ends : Ends}
    (h : t.pipe p = some (ends, u)) : Piped t p ends u := by
  obtain ⟨⟨r, v⟩, hread, h⟩ := Option.bind_eq_some_iff.mp h
  obtain ⟨⟨w, u'⟩, hwrite, h⟩ := Option.bind_eq_some_iff.mp h
  cases h
  obtain ⟨hr, rfl⟩ := alloc_eq_some.mp hread
  obtain ⟨hw, rfl⟩ := alloc_eq_some.mp hwrite
  obtain ⟨_, hrfree, hrlow⟩ := lowestFree_eq_some.mp hr
  obtain ⟨hwlim, hwfree, hwlow⟩ := lowestFree_eq_some.mp hw
  -- the read end has taken its number when the write end is given one
  have hne : w ≠ r := by
    rintro rfl
    rw [file_set, if_pos rfl] at hwfree
    cases hwfree
  rw [file_set, if_neg hne] at hwfree
  refine ⟨?_, hwlim, hrfree, hwfree, fun m hm hmr => ?_, rfl⟩
  · exact Nat.lt_of_not_le fun hle => hrlow w (Nat.lt_of_le_of_ne hle hne) hwfree
  · simpa only [file_set, if_neg hmr] using hwlow m hm

namespace Piped

variable {t u : Table (File α)} {p : Nat} {ends : Ends}

theorem limit_eq (h : Piped t p ends u) : u.limit = t.limit := by
  rw [h.after]
  rfl

theorem file_read (h : Piped t p ends u) : u.file ends.read = some (.readEnd p) := by
  rw [h.after, file_set, if_neg (Nat.ne_of_lt h.lt), file_set, if_pos rfl]

theorem file_write (h : Piped t p ends u) : u.file ends.write = some (.writeEnd p) := by
  rw [h.after, file_set, if_pos rfl]

theorem file_other (h : Piped t p ends u) {n : Nat} (hr : n ≠ ends.read) (hw : n ≠ ends.write) :
    u.file n = t.file n := by
  rw [h.after, file_set, if_neg hw, file_set, if_neg hr]

/-- Closing both ends undoes the call. -/
theorem close_ends (h : Piped t p ends u) : (u.close ends.read).close ends.write = t := by
  have hlimit : ((u.close ends.read).close ends.write).limit = t.limit := h.limit_eq
  have hfile : ((u.close ends.read).close ends.write).file = t.file := by
    funext n
    by_cases hw : n = ends.write
    · rw [file_close, if_pos hw, hw, h.write]
    by_cases hr : n = ends.read
    · rw [file_close_of_ne _ hw, file_close, if_pos hr, hr, h.read]
    · rw [file_close_of_ne _ hw, file_close_of_ne _ hr, h.file_other hr hw]
  cases t
  exact Table.mk.injEq .. ▸ ⟨hlimit, hfile⟩

/-- A descriptor for a read end is the new one, or was one before. -/
theorem of_readEnd (h : Piped t p ends u) {n q : Nat} (hn : u.file n = some (.readEnd q)) :
    (n = ends.read ∧ q = p) ∨ t.file n = some (.readEnd q) := by
  rw [h.after, file_set] at hn
  split at hn
  · cases hn
  rw [file_set] at hn
  split at hn
  · next hr =>
    cases hn
    exact .inl ⟨hr, rfl⟩
  · exact .inr hn

theorem of_file (h : Piped t p ends u) {n : Nat} {f : File α} (hn : u.file n = some f) :
    (n = ends.read ∧ f = .readEnd p) ∨ (n = ends.write ∧ f = .writeEnd p) ∨ t.file n = some f := by
  by_cases hr : n = ends.read
  · rw [hr, h.file_read] at hn
    exact .inl ⟨hr, (Option.some.inj hn).symm⟩
  by_cases hw : n = ends.write
  · rw [hw, h.file_write] at hn
    exact .inr (.inl ⟨hw, (Option.some.inj hn).symm⟩)
  rw [h.file_other hr hw] at hn
  exact .inr (.inr hn)

/-- What was open before stays, under a number that is not one of the ends. -/
theorem keeps (h : Piped t p ends u) {n : Nat} {f : File α} (hn : t.file n = some f) :
    n ≠ ends.read ∧ n ≠ ends.write ∧ u.file n = some f := by
  have hr : n ≠ ends.read := by
    rintro rfl
    cases h.read.symm.trans hn
  have hw : n ≠ ends.write := by
    rintro rfl
    cases h.write.symm.trans hn
  exact ⟨hr, hw, (h.file_other hr hw).trans hn⟩

theorem taken_after (h : Piped t p ends u) {n : Nat} (hn : n ≤ ends.write) : u.file n ≠ none := by
  by_cases hr : n = ends.read
  · rw [hr, h.file_read]
    exact Option.some_ne_none _
  by_cases hw : n = ends.write
  · rw [hw, h.file_write]
    exact Option.some_ne_none _
  rw [h.file_other hr hw]
  exact h.taken n (by omega) hr

theorem lt_next {v : Table (File α)} {q : Nat} {next : Ends} (h : Piped t p ends u)
    (hnext : Piped u q next v) : ends.write < next.read := by
  by_contra hle
  exact h.taken_after (Nat.le_of_not_lt hle) hnext.read

end Piped

/-! ## Files no descriptor stands for -/

def Lacks (t : Table α) (a : α) : Prop := ∀ n, t.file n ≠ some a

theorem Lacks.close {t : Table α} {a : α} (h : Lacks t a) (n : Nat) : Lacks (t.close n) a := by
  intro m
  exact fun hclose => h m (file_of_close hclose)

theorem Lacks.dup {t u : Table α} {a : α} {fd n : Nat} (h : Lacks t a)
    (hdup : t.dup fd = some (n, u)) : Lacks u a := by
  obtain ⟨b, hfd, halloc⟩ := Option.bind_eq_some_iff.mp hdup
  obtain ⟨_, rfl⟩ := alloc_eq_some.mp halloc
  intro m
  rw [file_set]
  split
  · rintro hab
    exact h fd (hfd.trans hab)
  · exact h m

end Table

end CSem
