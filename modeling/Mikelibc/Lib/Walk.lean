import Mathlib.Data.Fintype.EquivFin
import Mathlib.Data.Set.Finite.Basic
import Mathlib.Logic.Relation
import Mathlib.Order.WellFounded
import Mathlib.Order.WellFoundedSet

/-! # Walks along a relation

`Acc` of the converse of `r` at `a` says that no walk along `r` from `a` goes on for
ever. Where only finitely many elements can be reached, that is the absence of
cycles. -/
namespace CSem.Walk
open Relation

variable {α : Type} {r : α → α → Prop} {a b : α}

/-- Every walk along `r` from `a` ends. -/
def Ends (r : α → α → Prop) (a : α) : Prop := Acc (fun y x => r x y) a

theorem Ends.intro (h : ∀ b, r a b → Ends r b) : Ends r a := Acc.intro a h

theorem Ends.next (h : Ends r a) (hab : r a b) : Ends r b := h.inv hab

theorem Ends.reach (h : Ends r a) (hab : ReflTransGen r a b) : Ends r b := by
  induction hab with
  | refl => exact h
  | tail _ hlast ih => exact ih.next hlast

/-- A walk that comes back does not end. -/
theorem Ends.no_cycle (h : Ends r a) : ¬ TransGen r a a := by
  induction h with
  | intro a _ ih =>
    intro hcycle
    obtain ⟨b, hfirst, hback⟩ := TransGen.head'_iff.mp hcycle
    exact ih b hfirst (TransGen.tail' hback hfirst)

/-- A walk stays within `P` when it starts there and goes on so. -/
theorem within_iff {P : α → Prop} :
    (∀ b, ReflTransGen r a b → P b) ↔ P a ∧ ∀ b, r a b → ∀ c, ReflTransGen r b c → P c := by
  constructor
  · intro h
    exact ⟨h a .refl, fun b hab c hbc => h c (.head hab hbc)⟩
  · intro h c hac
    obtain ⟨ha, hnext⟩ := h
    obtain rfl | ⟨b, hab, hbc⟩ := hac.cases_head
    · exact ha
    · exact hnext b hab c hbc

/-- **Finitely many places.** Every walk from `a` ends exactly when none of the places it can come
to lies on a cycle. -/
theorem ends_iff_no_cycle (hfinite : {x | ReflTransGen r a x}.Finite) :
    Ends r a ↔ ∀ x, ReflTransGen r a x → ¬ TransGen r x x := by
  constructor
  · intro h x hx
    exact (h.reach hx).no_cycle
  · intro hno
    have : Finite {x // ReflTransGen r a x} := hfinite
    let onward : {x // ReflTransGen r a x} → {x // ReflTransGen r a x} → Prop :=
      fun y x => TransGen r x.1 y.1
    have : IsTrans _ onward := ⟨fun _ _ _ hxy hyz => TransGen.trans hyz hxy⟩
    have : Std.Irrefl onward := ⟨fun x hx => hno x.1 x.2 hx⟩
    have hwf : WellFounded onward := Finite.wellFounded_of_trans_of_irrefl onward
    have hall : ∀ x : {x // ReflTransGen r a x}, Ends r x.1 := by
      intro x
      induction x using hwf.induction with
      | _ x ih => exact .intro fun y hxy => ih ⟨y, x.2.tail hxy⟩ (TransGen.single hxy)
    exact hall ⟨a, .refl⟩

end CSem.Walk
