import Mathlib.Algebra.Group.Int.Defs
import Mathlib.Algebra.Group.Nat.Defs
import Mathlib.Data.List.Forall2
import Mathlib.Tactic.Common

/-! # Outcomes, loops and runs of C code

A piece of C code ends with a value, in a failed assertion, in undefined
behaviour, or not at all. Loops take a number of rounds they may make; running
out of them is an outcome of its own, so a statement about a result is never
vacuous because the loop did not end. The second half is about sequences of
calls on one state: what they return, the states they pass through, and the two
rules (simulation, invariant) every component below is proved with. -/
namespace CSem

universe u v

/-- How a piece of C code ends. `abort` is a failed `assert`, `fault` undefined
behaviour (a stray access, signed overflow), `hang` a loop that has used up its
rounds. -/
inductive Outcome (α : Type u) where
  | ok (a : α)
  | abort
  | fault
  | hang
  deriving Repr, DecidableEq

namespace Outcome

def bind {α : Type u} {β : Type v} : Outcome α → (α → Outcome β) → Outcome β
  | .ok a, f => f a
  | .abort, _ => .abort
  | .fault, _ => .fault
  | .hang, _ => .hang

instance : Monad Outcome where
  pure := Outcome.ok
  bind := Outcome.bind

def assert (c : Prop) [Decidable c] : Outcome Unit := if c then .ok () else .abort

/-- The language's own demand on the code: undefined behaviour unless `c`. -/
def require (c : Prop) [Decidable c] : Outcome Unit := if c then .ok () else .fault

variable {α β : Type u}

@[simp] theorem pure_eq (a : α) : (pure a : Outcome α) = .ok a := rfl
@[simp] theorem ok_bind (a : α) (f : α → Outcome β) : (Outcome.ok a >>= f) = f a := rfl
@[simp] theorem abort_bind (f : α → Outcome β) : (Outcome.abort >>= f) = .abort := rfl
@[simp] theorem fault_bind (f : α → Outcome β) : (Outcome.fault >>= f) = .fault := rfl
@[simp] theorem hang_bind (f : α → Outcome β) : (Outcome.hang >>= f) = .hang := rfl

theorem bind_eq_ok {x : Outcome α} {f : α → Outcome β} {b : β} :
    (x >>= f) = .ok b ↔ ∃ a, x = .ok a ∧ f a = .ok b := by
  cases x <;> simp

def any (p : α → Bool) : Outcome α → Bool
  | .ok a => p a
  | .abort | .fault | .hang => false

theorem any_eq_true {x : Outcome α} {p : α → Bool} :
    x.any p = true ↔ ∃ a, x = .ok a ∧ p a = true := by
  cases x <;> simp [any]

@[simp] theorem assert_eq_ok {c : Prop} [Decidable c] : assert c = .ok () ↔ c := by
  unfold assert; split <;> simp_all

@[simp] theorem require_eq_ok {c : Prop} [Decidable c] : require c = .ok () ↔ c := by
  unfold require; split <;> simp_all

theorem assert_of {c : Prop} [Decidable c] (h : c) : assert c = .ok () := assert_eq_ok.mpr h
theorem assert_of_not {c : Prop} [Decidable c] (h : ¬ c) : assert c = .abort := if_neg h
theorem require_of {c : Prop} [Decidable c] (h : c) : require c = .ok () := require_eq_ok.mpr h
theorem require_of_not {c : Prop} [Decidable c] (h : ¬ c) : require c = .fault := if_neg h

/-- No assertion fails and no loop runs out of rounds: a value, or undefined behaviour. -/
def Straight (x : Outcome α) : Prop := x ≠ .abort ∧ x ≠ .hang

@[simp] theorem straight_ok (a : α) : Straight (.ok a) := ⟨nofun, nofun⟩
@[simp] theorem straight_fault : Straight (.fault : Outcome α) := ⟨nofun, nofun⟩

@[simp] theorem straight_require (c : Prop) [Decidable c] : Straight (require c) := by
  unfold require; split <;> simp

theorem Straight.bind {x : Outcome α} {f : α → Outcome β} (hx : Straight x)
    (hf : ∀ a, x = .ok a → Straight (f a)) : Straight (x >>= f) := by
  cases x with
  | ok a => exact hf a rfl
  | fault => exact straight_fault
  | abort => exact absurd rfl hx.1
  | hang => exact absurd rfl hx.2

/-- Behind a straight piece, what follows decides. -/
@[simp] theorem straight_bind_iff {x : Outcome α} {f : α → Outcome β} (hx : Straight x) :
    Straight (x >>= f) ↔ ∀ a, x = .ok a → Straight (f a) := by
  refine ⟨fun h a ha => ?_, hx.bind⟩
  rw [ha] at h
  exact h

theorem Straight.fault_of {x : Outcome α} (hx : Straight x) (hno : ∀ a, x ≠ .ok a) : x = .fault := by
  cases x with
  | ok a => exact absurd rfl (hno a)
  | fault => rfl
  | abort => exact absurd rfl hx.1
  | hang => exact absurd rfl hx.2

end Outcome

/-! ## Loops -/

section Loop
variable {σ : Type} {cond : σ → Outcome Bool} {body : σ → Outcome σ} {s t : σ} {n k : Nat}

/-- `while (cond) body` over the variables `σ`, for fewer than the given number
of rounds. The condition may itself read memory. -/
def whileLoop (cond : σ → Outcome Bool) (body : σ → Outcome σ) : Nat → σ → Outcome σ
  | 0, _ => .hang
  | fuel + 1, s => do
    if ← cond s then
      let s ← body s
      whileLoop cond body fuel s
    else return s

theorem whileLoop_exit (hc : cond s = .ok false) : whileLoop cond body (n + 1) s = .ok s := by
  simp [whileLoop, hc]

theorem whileLoop_round (hc : cond s = .ok true) (hb : body s = .ok t) :
    whileLoop cond body (n + 1) s = whileLoop cond body n t := by
  simp [whileLoop, hc, hb]

/-- What every round keeps, the whole loop keeps, whatever the rounds it makes. -/
theorem whileLoop_keeps (P : σ → Prop)
    (hstep : ∀ s t, P s → cond s = .ok true → body s = .ok t → P t) :
    ∀ n s t, P s → whileLoop cond body n s = .ok t → P t := by
  intro n
  induction n with
  | zero => intro s t _ h; simp [whileLoop] at h
  | succ n ih =>
    intro s t hP h
    simp only [whileLoop, Outcome.bind_eq_ok] at h
    obtain ⟨b, hc, h⟩ := h
    cases b with
    | false => simp at h; exact h ▸ hP
    | true =>
      simp only [if_true, Outcome.bind_eq_ok] at h
      obtain ⟨u, hu, h⟩ := h
      exact ih u t (hstep s u hP hc hu) h

theorem whileLoop_ends :
    ∀ {n : Nat} {s t : σ}, whileLoop cond body n s = .ok t → cond t = .ok false := by
  intro n
  induction n with
  | zero => intro s t h; cases h
  | succ n ih =>
    intro s t h
    obtain ⟨b, hc, h⟩ := Outcome.bind_eq_ok.mp h
    cases b with
    | false => cases h; exact hc
    | true =>
      obtain ⟨u, _, h⟩ := Outcome.bind_eq_ok.mp h
      exact ih h

theorem whileLoop_congr {body' : σ → Outcome σ} (h : ∀ s, cond s = .ok true → body s = body' s) :
    ∀ (n : Nat) (s : σ), whileLoop cond body n s = whileLoop cond body' n s := by
  intro n
  induction n with
  | zero => intro s; rfl
  | succ n ih =>
    intro s
    unfold whileLoop
    cases hc : cond s with
    | ok b =>
      cases b with
      | true => simp only [Outcome.ok_bind, if_true, h s hc, ih]
      | false => rfl
    | abort | fault | hang => rfl

/-- A loop whose rounds are straight and count down does not run out of rounds. -/
theorem whileLoop_straight (measure : σ → Nat) (hcond : ∀ s, (cond s).Straight)
    (hbody : ∀ s, cond s = .ok true → (body s).Straight)
    (hless : ∀ s t, cond s = .ok true → body s = .ok t → measure t < measure s) :
    ∀ (n : Nat) (s : σ), measure s < n → (whileLoop cond body n s).Straight := by
  intro n
  induction n with
  | zero => intro s h; omega
  | succ n ih =>
    intro s h
    refine (hcond s).bind fun b hc => ?_
    cases b with
    | false => exact Outcome.straight_ok s
    | true =>
      refine (hbody s hc).bind fun t ht => ih t ?_
      have := hless s t hc ht
      omega

/-- The states in which a loop that starts at `s` tests its condition. -/
inductive LoopReaches (cond : σ → Outcome Bool) (body : σ → Outcome σ) (s : σ) : σ → Prop
  | start : LoopReaches cond body s s
  | round {t u : σ} : LoopReaches cond body s t → cond t = .ok true → body t = .ok u →
      LoopReaches cond body s u

/-- What every round keeps holds wherever the condition is tested. -/
theorem LoopReaches.keeps (P : σ → Prop)
    (hstep : ∀ s t, P s → cond s = .ok true → body s = .ok t → P t) (h0 : P s)
    (h : LoopReaches cond body s t) : P t := by
  induction h with
  | start => exact h0
  | round _ hc hbody ih => exact hstep _ _ ih hc hbody

end Loop

/-! ## Sequences of calls -/

section Runs
variable {σ op ret ρ aret : Type} {step : σ → op → Outcome (σ × ret)}

/-- Make the calls in turn and collect what they return. -/
def runOps (step : σ → op → Outcome (σ × ret)) : σ → List op → Outcome (σ × List ret)
  | s, [] => .ok (s, [])
  | s, o :: os => do
    let (s, r) ← step s o
    let (s, rs) ← runOps step s os
    return (s, r :: rs)

/-- The states a sequence of calls passes through, up to the first call that does
not end with a value. -/
def reached (step : σ → op → Outcome (σ × ret)) : σ → List op → List σ
  | s, [] => [s]
  | s, o :: os => s :: match step s o with
    | .ok (s, _) => reached step s os
    | _ => []

/-- The calls made, each with the state it is made in. -/
def visits (step : σ → op → Outcome (σ × ret)) : σ → List op → List (σ × op)
  | _, [] => []
  | s, o :: os => (s, o) :: match step s o with
    | .ok (s, _) => visits step s os
    | _ => []

def completed (step : σ → op → Outcome (σ × ret)) : σ → List op → List (σ × op)
  | _, [] => []
  | s, o :: os => match step s o with
    | .ok (s', _) => (s, o) :: completed step s' os
    | _ => []

def answers (step : σ → op → Outcome (σ × ret)) : σ → List op → List (op × ret)
  | _, [] => []
  | s, o :: os => match step s o with
    | .ok (s', r) => (o, r) :: answers step s' os
    | _ => []

/-- `runOps` for calls that always answer. -/
def runPure (step : ρ → op → ρ × aret) : ρ → List op → ρ × List aret
  | a, [] => (a, [])
  | a, o :: os => ((runPure step (step a o).1 os).1, (step a o).2 :: (runPure step (step a o).1 os).2)

theorem runOps_cons_ok {s s' : σ} {r : ret} {o : op} (h : step s o = .ok (s', r)) (os : List op) :
    runOps step s (o :: os) = (do let (t, rs) ← runOps step s' os; return (t, r :: rs)) := by
  simp [runOps, h]

theorem reached_cons_ok {s s' : σ} {r : ret} {o : op} (h : step s o = .ok (s', r)) (os : List op) :
    reached step s (o :: os) = s :: reached step s' os := by
  simp [reached, h]

theorem visits_cons_ok {s s' : σ} {r : ret} {o : op} (h : step s o = .ok (s', r)) (os : List op) :
    visits step s (o :: os) = (s, o) :: visits step s' os := by
  simp [visits, h]

theorem completed_cons_ok {s s' : σ} {r : ret} {o : op} (h : step s o = .ok (s', r)) (os : List op) :
    completed step s (o :: os) = (s, o) :: completed step s' os := by
  simp [completed, h]

theorem answers_cons_ok {s s' : σ} {r : ret} {o : op} (h : step s o = .ok (s', r)) (os : List op) :
    answers step s (o :: os) = (o, r) :: answers step s' os := by
  simp [answers, h]

theorem mem_reached_self (s : σ) (os : List op) : s ∈ reached step s os := by
  cases os <;> simp [reached]

theorem visits_mem_reached {s : σ} {os : List op} {p : σ × op} (h : p ∈ visits step s os) :
    p.1 ∈ reached step s os := by
  induction os generalizing s with
  | nil => simp [visits] at h
  | cons o os ih =>
    simp only [visits, List.mem_cons] at h
    simp only [reached, List.mem_cons]
    rcases h with rfl | h
    · exact .inl rfl
    · cases hs : step s o with
      | ok q => rw [hs] at h; exact .inr (ih h)
      | abort | fault | hang => rw [hs] at h; simp at h

theorem runPure_snoc (astep : ρ → op → ρ × aret) (a : ρ) (os : List op) (o : op) :
    runPure astep a (os ++ [o]) = ((astep (runPure astep a os).1 o).1,
      (runPure astep a os).2 ++ [(astep (runPure astep a os).1 o).2]) := by
  induction os generalizing a with
  | nil => rfl
  | cons p os ih => simp [runPure, ih]

theorem length_runPure (astep : ρ → op → ρ × aret) (a : ρ) (os : List op) :
    (runPure astep a os).2.length = os.length := by
  induction os generalizing a with
  | nil => rfl
  | cons p os ih => simp [runPure, ih]

/-- What holds of every call made from a state of the invariant, which may depend on the calls
still to come, holds of every call of a run. -/
theorem forall_visits (I : List op → σ → Prop) (Env P : σ → op → Prop)
    (hstep : ∀ o os s, I (o :: os) s → Env s o → P s o ∧ ∀ s' r, step s o = .ok (s', r) → I os s') :
    ∀ os s, I os s → (∀ p ∈ visits step s os, Env p.1 p.2) → ∀ p ∈ visits step s os, P p.1 p.2 := by
  intro os
  induction os with
  | nil => intro s _ _ p hp; cases hp
  | cons o os ih =>
    intro s hI hE p hp
    obtain ⟨hP, hnext⟩ := hstep o os s hI (hE (s, o) (by simp [visits]))
    rcases List.mem_cons.mp hp with rfl | hp
    · exact hP
    · cases hs : step s o with
      | abort | fault | hang => simp [hs] at hp
      | ok q =>
        obtain ⟨s', r⟩ := q
        rw [visits_cons_ok hs, List.forall_mem_cons] at hE
        rw [hs] at hp
        exact ih s' (hnext s' r hs) hE.2 p hp

/-- What holds at the start, with the calls to come, and is kept by a call that ends, holds of
every state passed through. -/
theorem forall_reached (I : List op → σ → Prop) (Env : σ → op → Prop)
    (hstep : ∀ o os s s' r, I (o :: os) s → Env s o → step s o = .ok (s', r) → I os s') :
    ∀ os s, I os s → (∀ p ∈ visits step s os, Env p.1 p.2) → ∀ t ∈ reached step s os, ∃ os, I os t := by
  intro os
  induction os with
  | nil => intro s hI _ t ht; exact ⟨[], by rwa [List.mem_singleton.mp ht]⟩
  | cons o os ih =>
    intro s hI hE t ht
    rcases List.mem_cons.mp ht with rfl | ht
    · exact ⟨o :: os, hI⟩
    · cases hs : step s o with
      | abort | fault | hang => simp [hs] at ht
      | ok q =>
        obtain ⟨s', r⟩ := q
        rw [visits_cons_ok hs, List.forall_mem_cons] at hE
        rw [hs] at ht
        exact ih s' (hstep o os s s' r hI hE.1 hs) hE.2 t ht

/-- **Simulation.** If one call from related states answers, keeps the relation
and answers as the abstract call does, then so does every sequence of calls
whose environment (`Env`) behaves in each state passed through. The relation may
depend on the calls still to come. -/
theorem runOps_simulates (astep : ρ → op → ρ × aret) (R : List op → σ → ρ → Prop)
    (A : aret → ret → Prop) (Env : σ → op → Prop)
    (hstep : ∀ o os s a, R (o :: os) s a → Env s o →
      ∃ s' r, step s o = .ok (s', r) ∧ R os s' (astep a o).1 ∧ A (astep a o).2 r) :
    ∀ os s a, R os s a → (∀ p ∈ visits step s os, Env p.1 p.2) →
      ∃ s' rs, runOps step s os = .ok (s', rs) ∧ R [] s' (runPure astep a os).1 ∧
        List.Forall₂ A (runPure astep a os).2 rs := by
  intro os
  induction os with
  | nil => intro s a hR _; exact ⟨s, [], rfl, hR, .nil⟩
  | cons o os ih =>
    intro s a hR hE
    obtain ⟨s', r, hs, hR', hA⟩ := hstep o os s a hR (hE (s, o) (by simp [visits]))
    rw [visits_cons_ok hs] at hE
    obtain ⟨t, rs, ht, hRt, hAs⟩ := ih s' _ hR' fun p hp => hE p (List.mem_cons_of_mem _ hp)
    exact ⟨t, r :: rs, by simp [runOps_cons_ok hs, ht], hRt, .cons hA hAs⟩

/-- **Exact condition of an invariant.** Among the states of `I`, a call from a
good state leads to a good state exactly when the call meets `C`; then a run
passes through good states only exactly when each call it completes meets `C`. -/
theorem reached_good_iff (I : List op → σ → Prop) (Good : σ → Prop) (Env C : σ → op → Prop)
    (hstep : ∀ o os s s' r, I (o :: os) s → Env s o → step s o = .ok (s', r) →
      I os s' ∧ (Good s → (Good s' ↔ C s o))) :
    ∀ os s, I os s → Good s → (∀ p ∈ completed step s os, Env p.1 p.2) →
      ((∀ g ∈ reached step s os, Good g) ↔ ∀ p ∈ completed step s os, C p.1 p.2) := by
  intro os
  induction os with
  | nil => intro s _ hG _; simp [reached, completed, hG]
  | cons o os ih =>
    intro s hI hG hE
    cases hs : step s o with
    | abort | fault | hang => simp [reached, completed, hs, hG]
    | ok p =>
      obtain ⟨s', r⟩ := p
      rw [completed_cons_ok hs] at hE ⊢
      rw [reached_cons_ok hs]
      simp only [List.forall_mem_cons] at hE ⊢
      obtain ⟨hI', hiff⟩ := hstep o os s s' r hI hE.1 hs
      have hC := hiff hG
      constructor
      · intro hgood
        obtain ⟨_, hall⟩ := hgood
        have hG' := hall s' (mem_reached_self s' os)
        exact ⟨hC.mp hG', (ih s' hI' hG' hE.2).mp hall⟩
      · intro hmeets
        obtain ⟨hCs, hall⟩ := hmeets
        exact ⟨hG, (ih s' hI' (hC.mpr hCs) hE.2).mpr hall⟩

/-- Along the calls the relation holds, and every call answers as the abstract call does. -/
def Follows (step : σ → op → Outcome (σ × ret)) (astep : ρ → op → ρ × aret) (R : σ → ρ → Prop)
    (A : aret → ret → Prop) : σ → ρ → List op → Prop
  | s, a, [] => R s a
  | s, a, o :: os => R s a ∧ ∃ s' r, step s o = .ok (s', r) ∧ A (astep a o).2 r ∧
      Follows step astep R A s' (astep a o).1 os

/-- The caller keeps to `Env` along the calls, as the abstract calls have them. -/
def Legal (astep : ρ → op → ρ × aret) (Env : ρ → op → Prop) : ρ → List op → Prop
  | _, [] => True
  | a, o :: os => Env a o ∧ Legal astep Env (astep a o).1 os

theorem Follows.start {astep : ρ → op → ρ × aret} {R : σ → ρ → Prop} {A : aret → ret → Prop} {s : σ}
    {a : ρ} {os : List op} (h : Follows step astep R A s a os) : R s a := by
  cases os with
  | nil => exact h
  | cons o os => exact h.1

theorem Follows.run {astep : ρ → op → ρ × aret} {R : σ → ρ → Prop} {A : aret → ret → Prop} :
    ∀ {os : List op} {s : σ} {a : ρ}, Follows step astep R A s a os →
      ∃ t rs, runOps step s os = .ok (t, rs)
  | [], s, _, _ => ⟨s, [], rfl⟩
  | o :: os, s, a, ⟨_, s', r, hs, _, h⟩ => by
    obtain ⟨t, rs, ht⟩ := Follows.run h
    exact ⟨t, r :: rs, by simp [runOps_cons_ok hs, ht]⟩

/-- **Exact condition of a refinement.** Calls that meet `C` keep the invariant and answer
as they should, and a call that does not meet it loses the relation if it ends at all; then
a run follows the abstract one exactly when each of its calls meets `C`. -/
theorem follows_iff (astep : ρ → op → ρ × aret) (R I : σ → ρ → Prop) (A : aret → ret → Prop)
    (Env : ρ → op → Prop) (C : σ → op → Prop) (hR : ∀ s a, I s a → R s a)
    (hgood : ∀ s a o, I s a → Env a o → C s o →
      ∃ s' r, step s o = .ok (s', r) ∧ A (astep a o).2 r ∧ I s' (astep a o).1)
    (hbad : ∀ s a o s' r, I s a → Env a o → ¬ C s o → step s o = .ok (s', r) → ¬ R s' (astep a o).1) :
    ∀ os s a, I s a → Legal astep Env a os →
      (Follows step astep R A s a os ↔ ∀ p ∈ visits step s os, C p.1 p.2) := by
  intro os
  induction os with
  | nil => intro s a hI _; simp [Follows, visits, hR s a hI]
  | cons o os ih =>
    rintro s a hI ⟨hE, hlegal⟩
    by_cases hC : C s o
    · obtain ⟨s', r, hs, hA, hI'⟩ := hgood s a o hI hE hC
      rw [visits_cons_ok hs, List.forall_mem_cons, ← ih s' _ hI' hlegal]
      constructor
      · intro hfollows
        obtain ⟨_, t, q, ht, _, h⟩ := hfollows
        rw [hs] at ht
        cases ht
        exact ⟨hC, h⟩
      · intro hmeets
        obtain ⟨_, h⟩ := hmeets
        exact ⟨hR s a hI, s', r, hs, hA, h⟩
    · constructor
      · intro hfollows
        obtain ⟨_, s', r, hs, _, h⟩ := hfollows
        exact absurd h.start (hbad s a o s' r hI hE hC hs)
      · intro h
        exact absurd (h (s, o) (by simp [visits])) hC

end Runs

end CSem
