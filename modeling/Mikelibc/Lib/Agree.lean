import Mikelibc.Lib.Control

/-! # Code that ends in the same way

Two versions of a piece of code, say on values and on the memory that holds them, agree if they
end with related values or in the same failure. Sequences and loops agree if their parts do. -/
namespace CSem

universe u v

/-- The two end with values that are related, or both in the same other way. -/
inductive Outcome.Agree {α : Type u} {β : Type v} (R : α → β → Prop) : Outcome α → Outcome β → Prop
  | ok {a b} : R a b → Agree R (.ok a) (.ok b)
  | abort : Agree R .abort .abort
  | fault : Agree R .fault .fault
  | hang : Agree R .hang .hang

namespace Outcome.Agree

variable {α α' : Type u} {β β' : Type v} {R : α → β → Prop} {S : α' → β' → Prop} {x : Outcome α}
  {y : Outcome β}

theorem same (x : Outcome α) : Agree (fun a b => a = b ∧ x = .ok a) x x := by
  cases x with
  | ok a => exact .ok ⟨rfl, rfl⟩
  | abort => exact .abort
  | fault => exact .fault
  | hang => exact .hang

theorem bind {f : α → Outcome α'} {g : β → Outcome β'} (h : Agree R x y)
    (hf : ∀ a b, R a b → Agree S (f a) (g b)) : Agree S (x >>= f) (y >>= g) := by
  cases h with
  | ok hab => exact hf _ _ hab
  | abort => exact .abort
  | fault => exact .fault
  | hang => exact .hang

theorem go_on {f : α → Outcome α'} {S : α' → β → Prop} (h : Agree R x y)
    (hf : ∀ a b, R a b → ∃ c, f a = .ok c ∧ S c b) : Agree S (x >>= f) y := by
  cases h with
  | @ok a b hab =>
    obtain ⟨c, hc, hS⟩ := hf a b hab
    rw [ok_bind, hc]
    exact .ok hS
  | abort => exact .abort
  | fault => exact .fault
  | hang => exact .hang

theorem mono {R' : α → β → Prop} (h : Agree R x y) (hR : ∀ a b, R a b → R' a b) : Agree R' x y := by
  cases h with
  | ok hab => exact .ok (hR _ _ hab)
  | abort => exact .abort
  | fault => exact .fault
  | hang => exact .hang

theorem left {a : α} (h : Agree R (.ok a) y) : ∃ b, y = .ok b ∧ R a b := by
  cases h with
  | ok hab => exact ⟨_, rfl, hab⟩

end Outcome.Agree

theorem whileLoop_agree {σ τ : Type} {R : σ → τ → Prop} {cond : σ → Outcome Bool}
    {cond' : τ → Outcome Bool} {body : σ → Outcome σ} {body' : τ → Outcome τ}
    (hcond : ∀ s t, R s t → cond s = cond' t)
    (hbody : ∀ s t, R s t → cond' t = .ok true → (body s).Agree R (body' t)) :
    ∀ (n : Nat) (s : σ) (t : τ), R s t →
      (whileLoop cond body n s).Agree R (whileLoop cond' body' n t) := by
  intro n
  induction n with
  | zero => intro s t _; exact .hang
  | succ n ih =>
    intro s t hR
    unfold whileLoop
    rw [hcond s t hR]
    refine (Outcome.Agree.same (cond' t)).bind fun b _ hb => ?_
    obtain ⟨rfl, hb⟩ := hb
    cases b with
    | true => exact (hbody s t hR hb).bind fun s' t' hR' => ih s' t' hR'
    | false => exact .ok hR

end CSem
