import Mikelibc.Lib.Control
import Mathlib.Logic.Function.Basic

/-! # Singly linked lists in memory

A store maps addresses to cells, a payload and a `next` pointer; following a
pointer to an address that is not allocated is a fault. `Seg s p l q` says that
from `p` the cells `l` are passed, in order, and then `q` is reached; a list ends
in `NULL`. A list determines its cells, so no cell is passed twice, and a write
elsewhere leaves it alone. -/
namespace CSem

/-- A pointer; `none` is `NULL`. -/
abbrev Ptr := Option Nat

structure Cell (β : Type) where
  payload : β
  next : Ptr
  deriving DecidableEq

abbrev Store (β : Type) := Nat → Option (Cell β)

namespace Store
variable {β : Type}

def load (s : Store β) : Ptr → Outcome (Cell β)
  | none => .fault
  | some a => match s a with
    | some c => .ok c
    | none => .fault

def store (s : Store β) (p : Ptr) (c : Cell β) : Outcome (Store β) :=
  match p with
  | none => .fault
  | some a => if (s a).isSome then .ok (Function.update s a (some c)) else .fault

def setNext (s : Store β) (p n : Ptr) : Outcome (Store β) := do
  let c ← s.load p
  s.store p { c with next := n }

theorem load_of {s : Store β} {a : Nat} {c : Cell β} (h : s a = some c) :
    s.load (some a) = .ok c := by
  simp [load, h]

theorem store_of {s : Store β} {a : Nat} {c : Cell β} (h : s a = some c) (d : Cell β) :
    s.store (some a) d = .ok (Function.update s a (some d)) := by
  simp [store, h]

theorem setNext_of {s : Store β} {a : Nat} {c : Cell β} (h : s a = some c) (n : Ptr) :
    s.setNext (some a) n = .ok (Function.update s a (some { c with next := n })) := by
  simp [setNext, load_of h, store_of h]

end Store

/-- From `p`, the cells of `l` are passed and `q` is reached. -/
inductive Seg {β : Type} (s : Store β) : Ptr → List (Nat × β) → Ptr → Prop
  | nil (p : Ptr) : Seg s p [] p
  | cons {a : Nat} {x : β} {n q : Ptr} {l : List (Nat × β)} :
      s a = some ⟨x, n⟩ → Seg s n l q → Seg s (some a) ((a, x) :: l) q

def IsList {β : Type} (s : Store β) (p : Ptr) (l : List (Nat × β)) : Prop := Seg s p l none

namespace Seg
variable {β : Type} {s s' : Store β} {p q r : Ptr} {l m : List (Nat × β)} {a : Nat} {x : β}

theorem nil_iff : Seg s p [] q ↔ p = q :=
  ⟨fun h => by cases h; rfl, fun h => h ▸ .nil p⟩

theorem cons_iff : Seg s p ((a, x) :: l) q ↔ p = some a ∧ ∃ n, s a = some ⟨x, n⟩ ∧ Seg s n l q := by
  constructor
  · intro h
    cases h with
    | cons ha hl => exact ⟨rfl, _, ha, hl⟩
  · intro h
    obtain ⟨rfl, n, ha, hl⟩ := h
    exact .cons ha hl

theorem append_iff : Seg s p (l ++ m) q ↔ ∃ r, Seg s p l r ∧ Seg s r m q := by
  induction l generalizing p with
  | nil => simp [nil_iff]
  | cons c l ih =>
    obtain ⟨a, x⟩ := c
    simp only [List.cons_append, cons_iff, ih]
    constructor
    · intro h
      obtain ⟨rfl, n, ha, r, hl, hm⟩ := h
      exact ⟨r, ⟨rfl, n, ha, hl⟩, hm⟩
    · intro h
      obtain ⟨r, ⟨rfl, n, ha, hl⟩, hm⟩ := h
      exact ⟨rfl, n, ha, r, hl, hm⟩

theorem cell (h : Seg s p l q) (hc : (a, x) ∈ l) : ∃ n, s a = some ⟨x, n⟩ := by
  obtain ⟨l₁, l₂, rfl⟩ := List.append_of_mem hc
  obtain ⟨_, _, h⟩ := append_iff.mp h
  obtain ⟨_, n, ha, _⟩ := cons_iff.mp h
  exact ⟨n, ha⟩

/-- Only the cells that are passed matter. -/
theorem congr (h : Seg s p l q) (hs : ∀ c ∈ l, s' c.1 = s c.1) : Seg s' p l q := by
  induction h with
  | nil p => exact .nil p
  | cons ha _ ih =>
    exact .cons ((hs _ List.mem_cons_self).trans ha) (ih fun c hc => hs c (List.mem_cons_of_mem _ hc))

theorem update (h : Seg s p l q) (ha : a ∉ l.map Prod.fst) (c : Option (Cell β)) :
    Seg (Function.update s a c) p l q := by
  refine h.congr fun d hd => Function.update_of_ne (fun he => ha ?_) _ _
  rw [← he]
  exact List.mem_map_of_mem hd

end Seg

namespace IsList
variable {β : Type} {s s' : Store β} {p : Ptr} {l m : List (Nat × β)} {a : Nat} {x : β}

theorem nil_iff : IsList s p [] ↔ p = none := Seg.nil_iff

theorem cons_iff : IsList s p ((a, x) :: l) ↔ p = some a ∧ ∃ n, s a = some ⟨x, n⟩ ∧ IsList s n l :=
  Seg.cons_iff

theorem unique (h : IsList s p l) (h' : IsList s p m) : l = m := by
  induction l generalizing p m with
  | nil =>
    cases m with
    | nil => rfl
    | cons c m => rw [nil_iff.mp h] at h'; cases h'
  | cons c l ih =>
    obtain ⟨a, x⟩ := c
    obtain ⟨rfl, n, ha, hl⟩ := cons_iff.mp h
    cases m with
    | nil => cases nil_iff.mp h'
    | cons d m =>
      obtain ⟨b, y⟩ := d
      obtain ⟨hb, n', ha', hm⟩ := cons_iff.mp h'
      cases hb
      rw [ha] at ha'
      cases ha'
      rw [ih hl hm]

/-- No cell is passed twice: from a second pass on, the list would be its own tail. -/
theorem nodup (h : IsList s p l) : (l.map Prod.fst).Nodup := by
  induction l generalizing p with
  | nil => simp
  | cons c l ih =>
    obtain ⟨a, x⟩ := c
    obtain ⟨rfl, n, ha, hl⟩ := cons_iff.mp h
    rw [List.map_cons, List.nodup_cons]
    refine ⟨fun hmem => ?_, ih hl⟩
    obtain ⟨⟨b, y⟩, hcell, hb⟩ := List.mem_map.mp hmem
    cases hb
    obtain ⟨l₁, l₂, rfl⟩ := List.append_of_mem hcell
    obtain ⟨r, _, hr⟩ := Seg.append_iff.mp hl
    obtain ⟨rfl, _⟩ := Seg.cons_iff.mp hr
    have := congrArg List.length (unique h hr)
    simp only [List.length_cons, List.length_append] at this
    omega

theorem start_eq (h : IsList s p ((a, x) :: l)) : p = some a := (cons_iff.mp h).1

theorem start_ne (h : IsList s p l) (hne : l ≠ []) : p ≠ none := by
  cases l with
  | nil => exact absurd rfl hne
  | cons c l => rw [h.start_eq]; simp

theorem start_none (h : IsList s none l) : l = [] := by
  cases l with
  | nil => rfl
  | cons c l => cases h.start_eq

theorem middle (h : IsList s p (l ++ (a, x) :: m)) : ∃ n, s a = some ⟨x, n⟩ := Seg.cell h (by simp)

theorem middle_notMem (h : IsList s p (l ++ (a, x) :: m)) :
    a ∉ l.map Prod.fst ∧ a ∉ m.map Prod.fst := by
  have hnodup := h.nodup
  rw [List.map_append, List.map_cons, List.nodup_append, List.nodup_cons] at hnodup
  exact ⟨fun hmem => hnodup.2.2 a hmem a List.mem_cons_self rfl, hnodup.2.1.1⟩

theorem setPayload {n : Ptr} (h : IsList s p (l ++ (a, x) :: m)) (ha : s a = some ⟨x, n⟩) (y : β) :
    IsList (Function.update s a (some ⟨y, n⟩)) p (l ++ (a, y) :: m) := by
  obtain ⟨hl, hm⟩ := h.middle_notMem
  obtain ⟨r, hpre, hr⟩ := Seg.append_iff.mp h
  obtain ⟨rfl, n', ha', hpost⟩ := Seg.cons_iff.mp hr
  rw [ha] at ha'
  cases ha'
  exact Seg.append_iff.mpr
    ⟨some a, hpre.update hl _, .cons (Function.update_self _ _ _) (hpost.update hm _)⟩

end IsList

end CSem
