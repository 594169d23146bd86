import Mikelibc.Lib.Control

/-! # One part of a component

A component keeps several parts, and each of its calls is for some of them. A part
that answers its own calls as it would alone, whatever calls for other parts are
made in between, does so in every history (`answers_share`). -/
namespace CSem

section Parts
variable {σ π κ op ret α : Type} {step : σ → op → Outcome (σ × ret)}
  {alone : π → op → Outcome (π × ret)}

/-- The entries of a history that are for one part; which ones they are depends on the calls
made before. -/
def share (mine : κ → op → Bool) (next : κ → op → κ) (f : α → op) : κ → List α → List α
  | _, [] => []
  | k, x :: xs =>
    if mine k (f x) then x :: share mine next f (next k (f x)) xs
    else share mine next f (next k (f x)) xs

variable {mine : κ → op → Bool} {next : κ → op → κ}

theorem share_cons_own {f : α → op} {k : κ} {x : α} (h : mine k (f x) = true) (xs : List α) :
    share mine next f k (x :: xs) = x :: share mine next f (next k (f x)) xs := by
  rw [share, if_pos h]

theorem share_cons_other {f : α → op} {k : κ} {x : α} (h : mine k (f x) = false)
    (xs : List α) : share mine next f k (x :: xs) = share mine next f (next k (f x)) xs := by
  rw [share, if_neg (by rw [h]; exact Bool.false_ne_true)]

def AllAnswered (step : σ → op → Outcome (σ × ret)) (s : σ) (os : List op) : Prop :=
  ∃ q, runOps step s os = .ok q

theorem AllAnswered.cons {s : σ} {o : op} {os : List op} (h : AllAnswered step s (o :: os)) :
    ∃ s' r, step s o = .ok (s', r) ∧ AllAnswered step s' os := by
  obtain ⟨q, hq⟩ := h
  obtain ⟨⟨s', r⟩, hs, hq⟩ := Outcome.bind_eq_ok.mp hq
  obtain ⟨q', hq', _⟩ := Outcome.bind_eq_ok.mp hq
  exact ⟨s', r, hs, q', hq'⟩

/-- **A part answers as if it were alone.** If a call for the part that ends does to it what it
would do alone, with the same answer, and a call for others leaves it as it is, then in every
history the part's calls are answered as they are alone, all of them if the run ends. The relation
may depend on the calls still to come. -/
theorem answers_share (R : List op → σ → κ → π → Prop) (Env : σ → op → Prop)
    (hown : ∀ o os s k p s' r, R (o :: os) s k p → Env s o → mine k o = true →
      step s o = .ok (s', r) → ∃ p', alone p o = .ok (p', r) ∧ R os s' (next k o) p')
    (hother : ∀ o os s k p s' r, R (o :: os) s k p → Env s o → mine k o = false →
      step s o = .ok (s', r) → R os s' (next k o) p) :
    ∀ os s k p, R os s k p → (∀ q ∈ visits step s os, Env q.1 q.2) →
      share mine next Prod.fst k (answers step s os) <+: answers alone p (share mine next id k os) ∧
      (AllAnswered step s os →
        share mine next Prod.fst k (answers step s os) = answers alone p (share mine next id k os)) := by
  intro os
  induction os with
  | nil => intro s k p _ _; exact ⟨List.prefix_refl _, fun _ => rfl⟩
  | cons o os ih =>
    intro s k p hR hE
    have hfirst : Env s o := hE (s, o) (by simp [visits])
    by_cases hq : ∃ q, step s o = .ok q
    · obtain ⟨⟨s', r⟩, hs⟩ := hq
      rw [visits_cons_ok hs, List.forall_mem_cons] at hE
      have hrest : AllAnswered step s (o :: os) → AllAnswered step s' os := fun hends => by
        obtain ⟨_, _, hs', hends⟩ := hends.cons
        cases hs.symm.trans hs'
        exact hends
      rw [answers_cons_ok hs]
      cases hmine : mine k o with
      | true =>
        obtain ⟨p', hp, hR'⟩ := hown o os s k p s' r hR hfirst hmine hs
        obtain ⟨hpre, heq⟩ := ih s' _ p' hR' hE.2
        rw [share_cons_own (f := Prod.fst) hmine, share_cons_own (f := id) hmine,
          id_eq, answers_cons_ok hp]
        exact ⟨List.cons_prefix_cons.mpr ⟨rfl, hpre⟩, fun hends => by rw [heq (hrest hends)]⟩
      | false =>
        obtain ⟨hpre, heq⟩ := ih s' _ p (hother o os s k p s' r hR hfirst hmine hs) hE.2
        rw [share_cons_other (f := Prod.fst) hmine, share_cons_other (f := id) hmine]
        exact ⟨hpre, fun hends => heq (hrest hends)⟩
    · have hnone : answers step s (o :: os) = [] := by
        rw [answers]
        split
        · next s' r hs => exact absurd ⟨_, hs⟩ hq
        · rfl
      rw [hnone]
      refine ⟨List.nil_prefix, fun hends => ?_⟩
      obtain ⟨s', r, hs, _⟩ := hends.cons
      exact absurd ⟨_, hs⟩ hq

/-- What makes no difference to the calls of a run makes none to their answers. -/
theorem answers_map {f : op → op} (hf : ∀ p o, alone p (f o) = alone p o) :
    ∀ (os : List op) (p : π),
      (answers alone p os).map (Prod.map f id) = answers alone p (os.map f) := by
  intro os
  induction os with
  | nil => intro p; rfl
  | cons o os ih =>
    intro p
    rw [List.map_cons, answers, answers, hf]
    cases alone p o with
    | ok q => rw [List.map_cons, ih]; rfl
    | abort | fault | hang => rfl

end Parts

end CSem
