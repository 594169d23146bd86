import Mikelibc.Lib.Control
import Mathlib.Algebra.Order.BigOperators.Group.Finset
import Mathlib.Data.Fintype.BigOperators
import Mathlib.Logic.Relation

/-! # Monitors: a mutex, condition variables, any number of threads

Every operation of a monitor has the shape

    lock; while (blocked) wait(waits); body; signal(signals); unlock

A waiter that is signalled, or wakes by itself, has to re-acquire the mutex and
test again, and other threads may get in first. Two facts hold of every such
program. The bodies take effect one after the other, each in a state in which it
is not blocked (`Code.Run.log_invariant`), so sequential reasoning carries over.
And when a body frees at most one unit of what its signal announces and uses up
a unit of what it waits for, no wakeup is lost (`no_lost_wakeup`): whenever
somebody still waits, the threads on their way cover what is available. -/
namespace Monitor
open CSem

/-- The operations of a monitor over the shared state `σ`. -/
structure Code (σ call ret cv : Type) where
  blocked : call → σ → Bool
  waits : call → cv
  signals : call → cv
  body : call → σ → Outcome (σ × ret)

inductive Pc (call ret : Type) where
  | idle
  /-- At the lock. -/
  | entering (c : call)
  /-- Holds the mutex, at the test of the loop. -/
  | testing (c : call)
  /-- Holds the mutex, the test has told it to wait. -/
  | blocking (c : call)
  /-- Asleep on its condition variable, mutex released. -/
  | waiting (c : call)
  /-- Awake, the mutex still to be re-acquired. -/
  | woken (c : call)
  /-- Holds the mutex, past the loop. -/
  | inside (c : call)
  /-- Holds the mutex, the body done. -/
  | signalling (c : call) (r : ret)
  /-- Holds the mutex, the signal sent. -/
  | leaving (c : call) (r : ret)
  deriving DecidableEq

/-- `log` records the bodies in the order they ran. -/
structure State (τ σ call ret : Type) where
  shared : σ
  owner : Option τ
  pc : τ → Pc call ret
  log : List (τ × call × ret)

/-- What a thread may do next; `signal` names the waiter that is woken. -/
inductive Act (τ call : Type) where
  | call (t : τ) (c : call)
  | lock (t : τ)
  | test (t : τ)
  | block (t : τ)
  | wake (t : τ)
  | relock (t : τ)
  | body (t : τ)
  | signal (t : τ) (u : Option τ)
  | leave (t : τ)

def Pc.holds {call ret : Type} : Pc call ret → Bool
  | .testing _ | .blocking _ | .inside _ | .signalling _ _ | .leaving _ _ => true
  | .idle | .entering _ | .waiting _ | .woken _ => false

section Semantics
variable {τ σ call ret cv : Type} [DecidableEq τ]

def State.start (x : σ) : State τ σ call ret := ⟨x, none, fun _ => .idle, []⟩

def State.move (s : State τ σ call ret) (t : τ) (p : Pc call ret) : State τ σ call ret :=
  { s with pc := Function.update s.pc t p }

variable [Fintype τ] [DecidableEq cv] (M : Code σ call ret cv)

def Code.sleepsOn (k : cv) : Pc call ret → Bool
  | .waiting c => M.waits c = k
  | _ => false

/-- One step. A signal wakes one of the threads that sleep on the condition
variable, whichever, and none only if there is none. -/
def Code.next (s : State τ σ call ret) : Act τ call → Option (State τ σ call ret)
  | .call t c => match s.pc t with
    | .idle => some (s.move t (.entering c))
    | _ => none
  | .lock t => match s.pc t, s.owner with
    | .entering c, none => some { s.move t (.testing c) with owner := some t }
    | _, _ => none
  | .test t => match s.pc t with
    | .testing c => some (s.move t (if M.blocked c s.shared then .blocking c else .inside c))
    | _ => none
  | .block t => match s.pc t with
    | .blocking c => some { s.move t (.waiting c) with owner := none }
    | _ => none
  | .wake t => match s.pc t with
    | .waiting c => some (s.move t (.woken c))
    | _ => none
  | .relock t => match s.pc t, s.owner with
    | .woken c, none => some { s.move t (.testing c) with owner := some t }
    | _, _ => none
  | .body t => match s.pc t with
    | .inside c => match M.body c s.shared with
      | .ok (x, r) =>
        some { s.move t (.signalling c r) with shared := x, log := s.log ++ [(t, c, r)] }
      | _ => none
    | _ => none
  | .signal t none => match s.pc t with
    | .signalling c r =>
      if ∀ u, M.sleepsOn (M.signals c) (s.pc u) = false then some (s.move t (.leaving c r)) else none
    | _ => none
  | .signal t (some u) => match s.pc t, s.pc u with
    | .signalling c r, .waiting d =>
      if M.waits d = M.signals c then some ((s.move u (.woken d)).move t (.leaving c r)) else none
    | _, _ => none
  | .leave t => match s.pc t with
    | .leaving _ _ => some { s.move t .idle with owner := none }
    | _ => none

/-- What one step can do, as the proofs below use it. -/
inductive Move (s : State τ σ call ret) : State τ σ call ret → Prop
  | call {t : τ} {c : call} : s.pc t = .idle → Move s (s.move t (.entering c))
  | lock {t : τ} {c : call} : s.pc t = .entering c → s.owner = none →
      Move s { s.move t (.testing c) with owner := some t }
  | pass {t : τ} {c : call} : s.pc t = .testing c → M.blocked c s.shared = false →
      Move s (s.move t (.inside c))
  | fail {t : τ} {c : call} : s.pc t = .testing c → M.blocked c s.shared = true →
      Move s (s.move t (.blocking c))
  | block {t : τ} {c : call} : s.pc t = .blocking c →
      Move s { s.move t (.waiting c) with owner := none }
  | wake {t : τ} {c : call} : s.pc t = .waiting c → Move s (s.move t (.woken c))
  | relock {t : τ} {c : call} : s.pc t = .woken c → s.owner = none →
      Move s { s.move t (.testing c) with owner := some t }
  | body {t : τ} {c : call} {x : σ} {r : ret} : s.pc t = .inside c →
      M.body c s.shared = .ok (x, r) →
      Move s { s.move t (.signalling c r) with shared := x, log := s.log ++ [(t, c, r)] }
  | signal {t : τ} {c : call} {r : ret} : s.pc t = .signalling c r →
      (∀ u, M.sleepsOn (M.signals c) (s.pc u) = false) → Move s (s.move t (.leaving c r))
  | signalTo {t u : τ} {c d : call} {r : ret} : s.pc t = .signalling c r → s.pc u = .waiting d →
      M.waits d = M.signals c → Move s ((s.move u (.woken d)).move t (.leaving c r))
  | leave {t : τ} {c : call} {r : ret} : s.pc t = .leaving c r →
      Move s { s.move t .idle with owner := none }

theorem Code.next_move {s s' : State τ σ call ret} {a : Act τ call} (h : M.next s a = some s') :
    Move M s s' := by
  unfold Code.next at h
  split at h <;> split at h <;> (try cases h)
  · exact .call ‹_›
  · exact .lock ‹_› ‹_›
  · split
    · exact .fail ‹_› ‹_›
    · next hb => exact .pass ‹_› (Bool.eq_false_iff.mpr hb)
  · exact .block ‹_›
  · exact .wake ‹_›
  · exact .relock ‹_› ‹_›
  · split at h <;> cases h
    exact .body ‹_› ‹_›
  · split at h <;> cases h
    exact .signal ‹_› ‹_›
  · split at h <;> cases h
    exact .signalTo ‹_› ‹_› ‹_›
  · exact .leave ‹_›

/-- The states that threads in any order reach from `s`, as long as the shared
state stays within `E`. -/
def Code.Run (E : σ → Prop) : State τ σ call ret → State τ σ call ret → Prop :=
  Relation.ReflTransGen fun s s' => (∃ a, M.next s a = some s') ∧ E s'.shared

def Code.runActs (E : σ → Prop) [DecidablePred E] (s : State τ σ call ret) :
    List (Act τ call) → Option (State τ σ call ret)
  | [] => some s
  | a :: as => (M.next s a).bind fun s => if E s.shared then runActs E s as else none

theorem Code.runActs_run {E : σ → Prop} [DecidablePred E] {s t : State τ σ call ret}
    {as : List (Act τ call)} (h : M.runActs E s as = some t) : M.Run E s t := by
  induction as generalizing s with
  | nil => cases h; exact .refl
  | cons a as ih =>
    obtain ⟨u, hu, h⟩ := Option.bind_eq_some_iff.mp h
    split at h
    · next hE => exact .head ⟨⟨a, hu⟩, hE⟩ (ih h)
    · cases h

variable {M}

theorem Code.Run.bounded {E : σ → Prop} {s₀ s : State τ σ call ret} (h : M.Run E s₀ s)
    (hE : E s₀.shared) : E s.shared := by
  induction h with
  | refl => exact hE
  | tail _ hs _ => exact hs.2

/-- What every move keeps holds in every state a run reaches. -/
theorem Code.Run.invariant {E : σ → Prop} {s₀ s : State τ σ call ret}
    {I : State τ σ call ret → Prop} (h : M.Run E s₀ s) (h₀ : I s₀)
    (hstep : ∀ s s', I s → E s.shared → Move M s s' → I s') (hE : E s₀.shared) : I s := by
  induction h with
  | refl => exact h₀
  | tail hr hs ih =>
    obtain ⟨⟨a, ha⟩, _⟩ := hs
    exact hstep _ _ ih (Code.Run.bounded hr hE) (M.next_move ha)

end Semantics

/-! ## The bodies take effect one after the other -/

section Serial
variable {τ σ call ret cv : Type}

/-- The monitor's invariant: the owner of the mutex and nobody else is in its
critical section, and the shared state is still what its place there says. -/
structure Inv (M : Code σ call ret cv) (s : State τ σ call ret) : Prop where
  mutex : ∀ t, (s.pc t).holds = true ↔ s.owner = some t
  passed : ∀ t c, s.pc t = .inside c → M.blocked c s.shared = false
  failed : ∀ t c, s.pc t = .blocking c → M.blocked c s.shared = true
  logged : ∀ t c r, s.pc t = .signalling c r ∨ s.pc t = .leaving c r → s.log.getLast? = some (t, c, r)

variable {M : Code σ call ret cv} {x : σ} {s : State τ σ call ret}

theorem Inv.start (M : Code σ call ret cv) (x : σ) : Inv M (State.start x : State τ σ call ret) :=
  ⟨fun t => by simp [State.start, Pc.holds], fun t c h => by simp [State.start] at h,
    fun t c h => by simp [State.start] at h, fun t c r h => by simp [State.start] at h⟩

/-- Only the owner is in its critical section. -/
theorem Inv.other (h : Inv M s) {t u : τ} (ht : (s.pc t).holds = true) (hu : u ≠ t) :
    (s.pc u).holds = false := by
  by_contra hc
  rw [Bool.not_eq_false] at hc
  exact hu (Option.some.inj (((h.mutex u).mp hc).symm.trans ((h.mutex t).mp ht)))

variable [DecidableEq τ]

@[simp] theorem move_pc_self (t : τ) (p : Pc call ret) : (s.move t p).pc t = p := by
  simp [State.move]

theorem move_pc_ne {t u : τ} (p : Pc call ret) (h : u ≠ t) : (s.move t p).pc u = s.pc u := by
  simp [State.move, h]

@[simp] theorem move_shared (t : τ) (p : Pc call ret) : (s.move t p).shared = s.shared := rfl
@[simp] theorem move_owner (t : τ) (p : Pc call ret) : (s.move t p).owner = s.owner := rfl
@[simp] theorem move_log (t : τ) (p : Pc call ret) : (s.move t p).log = s.log := rfl

/-- A move that leaves the shared state and the log alone keeps the invariant when it
keeps the mutex's part of it and the moved thread's place is what the state says. -/
theorem Inv.moved (h : Inv M s) {t : τ} {p : Pc call ret} {o : Option τ}
    (hmutex : ∀ u, ((s.move t p).pc u).holds = true ↔ o = some u)
    (hpass : ∀ c, p = .inside c → M.blocked c s.shared = false)
    (hfail : ∀ c, p = .blocking c → M.blocked c s.shared = true)
    (hlog : ∀ c r, p = .signalling c r ∨ p = .leaving c r → s.log.getLast? = some (t, c, r)) :
    Inv M { s.move t p with owner := o } := by
  refine ⟨hmutex, fun u c hu => ?_, fun u c hu => ?_, fun u c r hu => ?_⟩ <;>
    by_cases hut : u = t
  · subst hut; simp at hu; exact hpass c hu
  · exact h.passed u c (by rwa [← move_pc_ne p hut])
  · subst hut; simp at hu; exact hfail c hu
  · exact h.failed u c (by rwa [← move_pc_ne p hut])
  · subst hut; simp at hu; exact hlog c r hu
  · exact h.logged u c r (by rwa [← move_pc_ne p hut])

theorem Inv.mutex_moved (h : Inv M s) {t : τ} {p : Pc call ret}
    (hp : p.holds = (s.pc t).holds) (u : τ) :
    ((s.move t p).pc u).holds = true ↔ s.owner = some u := by
  rw [← h.mutex u]
  by_cases hut : u = t
  · subst hut; simp [hp]
  · rw [move_pc_ne p hut]

theorem Inv.mutex_taken (h : Inv M s) {t : τ} {p : Pc call ret} (hfree : s.owner = none)
    (hp : p.holds = true) (u : τ) : ((s.move t p).pc u).holds = true ↔ some t = some u := by
  by_cases hut : u = t
  · subst hut; simp [hp]
  · rw [move_pc_ne p hut, h.mutex u, hfree]
    simp [Ne.symm hut]

theorem Inv.mutex_released (h : Inv M s) {t : τ} {p : Pc call ret}
    (ht : (s.pc t).holds = true) (hp : p.holds = false) (u : τ) :
    ((s.move t p).pc u).holds = true ↔ none = some u := by
  by_cases hut : u = t
  · subst hut; simp [hp]
  · rw [move_pc_ne p hut, h.other ht hut]
    simp

theorem Inv.step [Fintype τ] [DecidableEq cv] {s' : State τ σ call ret} (h : Inv M s)
    (hm : Move M s s') : Inv M s' := by
  cases hm with
  | call hpc =>
    exact h.moved (h.mutex_moved (by rw [hpc]; rfl)) (by simp) (by simp) (by simp)
  | lock hpc hfree | relock hpc hfree =>
    exact h.moved (h.mutex_taken hfree rfl) (by simp) (by simp) (by simp)
  | pass hpc hb =>
    exact h.moved (h.mutex_moved (by rw [hpc]; rfl)) (by rintro c ⟨⟩; exact hb) (by simp) (by simp)
  | fail hpc hb =>
    exact h.moved (h.mutex_moved (by rw [hpc]; rfl)) (by simp) (by rintro c ⟨⟩; exact hb) (by simp)
  | block hpc =>
    exact h.moved (h.mutex_released (by rw [hpc]; rfl) rfl) (by simp) (by simp) (by simp)
  | wake hpc =>
    exact h.moved (h.mutex_moved (by rw [hpc]; rfl)) (by simp) (by simp) (by simp)
  | @body t c y r hpc hbody =>
    have ht : (s.pc t).holds = true := by rw [hpc]; rfl
    -- nobody else holds the mutex, so nobody else has a claim on the shared state
    have hother : ∀ u p, u ≠ t → (s.move t (.signalling c r)).pc u = p → p.holds = false :=
      fun u p hu hp => by rw [← hp, move_pc_ne _ hu]; exact h.other ht hu
    refine ⟨h.mutex_moved (by rw [hpc]; rfl), ?_, ?_, ?_⟩
    · intro u d hu
      by_cases hut : u = t
      · subst hut; simp at hu
      · simpa [Pc.holds] using hother u _ hut hu
    · intro u d hu
      by_cases hut : u = t
      · subst hut; simp at hu
      · simpa [Pc.holds] using hother u _ hut hu
    · intro u d r' hu
      by_cases hut : u = t
      · subst hut
        simp only [move_pc_self, Pc.signalling.injEq, reduceCtorEq, or_false] at hu
        obtain ⟨rfl, rfl⟩ := hu
        simp
      · rcases hu with hu | hu <;> simpa [Pc.holds] using hother u _ hut hu
  | signal hpc _ =>
    exact h.moved (h.mutex_moved (by rw [hpc]; rfl)) (by simp) (by simp)
      (by rintro c r (he | he) <;> cases he; exact h.logged _ _ _ (.inl hpc))
  | @signalTo t u c d r hpc hu _ =>
    have hne : t ≠ u := by rintro rfl; rw [hpc] at hu; cases hu
    have hw : Inv M (s.move u (.woken d)) :=
      h.moved (h.mutex_moved (by rw [hu]; rfl)) (by simp) (by simp) (by simp)
    have hpc' : (s.move u (.woken d)).pc t = .signalling c r := by rw [move_pc_ne _ hne, hpc]
    exact hw.moved (hw.mutex_moved (by rw [hpc']; rfl)) (by simp) (by simp)
      (by rintro c r (he | he) <;> cases he; exact hw.logged _ _ _ (.inl hpc'))
  | leave hpc =>
    exact h.moved (h.mutex_released (by rw [hpc]; rfl) rfl) (by simp) (by simp) (by simp)

/-- The invariant holds in every state a run reaches, and so does every relation between the
shared state and the log that the bodies keep. -/
theorem Code.Run.log_invariant [Fintype τ] [DecidableEq cv] {E : σ → Prop}
    (J : σ → List (τ × call × ret) → Prop) (h : M.Run E (State.start x) s) (hE : E x) (h₀ : J x [])
    (hstep : ∀ y l t c z r, J y l → E y → M.blocked c y = false → M.body c y = .ok (z, r) →
      J z (l ++ [(t, c, r)])) : Inv M s ∧ J s.shared s.log := by
  refine h.invariant (I := fun s => Inv M s ∧ J s.shared s.log) ⟨Inv.start M x, h₀⟩ ?_ hE
  rintro s s' ⟨hinv, hJ⟩ hEs hm
  refine ⟨hinv.step hm, ?_⟩
  cases hm with
  | body hpc hbody => exact hstep _ _ _ _ _ _ hJ hEs (hinv.passed _ _ hpc) hbody
  | call | lock | pass | fail | block | wake | relock | signal | signalTo | leave => exact hJ

/-- A sleeper was told to wait by a state the bodies lead to. -/
theorem Code.Run.sleeper_blocked [Fintype τ] [DecidableEq cv] {E : σ → Prop} (I : σ → Prop)
    (h : M.Run E (State.start x) s) (hE : E x) (h₀ : I x)
    (hstep : ∀ y c z r, I y → M.blocked c y = false → M.body c y = .ok (z, r) → I z)
    {t : τ} {c : call} (ht : s.pc t = .waiting c) : ∃ y, I y ∧ M.blocked c y = true := by
  have hall : Inv M s ∧ I s.shared ∧
      ∀ t c, s.pc t = .waiting c → ∃ y, I y ∧ M.blocked c y = true := by
    refine h.invariant
      (I := fun s => Inv M s ∧ I s.shared ∧
        ∀ t c, s.pc t = .waiting c → ∃ y, I y ∧ M.blocked c y = true)
      ⟨Inv.start M x, h₀, fun t c ht => by simp [State.start] at ht⟩ ?_ hE
    rintro s s' ⟨hinv, hI, hsl⟩ _ hm
    -- a thread that moves to another place than sleep leaves the sleepers to `s`
    have hkeep : ∀ {t : τ} {p : Pc call ret}, (∀ c, p ≠ .waiting c) → ∀ u c,
        (s.move t p).pc u = .waiting c → ∃ y, I y ∧ M.blocked c y = true := by
      intro t p hp u c hu
      by_cases hut : u = t
      · subst hut; rw [move_pc_self] at hu; exact absurd hu (hp c)
      · exact hsl u c (by rwa [← move_pc_ne p hut])
    refine ⟨hinv.step hm, ?_, ?_⟩
    · cases hm with
      | body hpc hbody => exact hstep _ _ _ _ hI (hinv.passed _ _ hpc) hbody
      | call | lock | pass | fail | block | wake | relock | signal | signalTo | leave => exact hI
    · cases hm with
      | call | lock | pass | fail | wake | relock | body | signal | leave => exact hkeep (by simp)
      | @block t c hpc =>
        intro u d hu
        by_cases hut : u = t
        · subst hut
          have hu : (s.move u (.waiting c)).pc u = .waiting d := hu
          rw [move_pc_self] at hu
          cases hu
          exact ⟨s.shared, hI, hinv.failed _ _ hpc⟩
        · exact hsl u d (by rwa [← move_pc_ne (.waiting c) hut])
      | @signalTo t u c d r hpc hu hd =>
        intro v e hv
        by_cases hvt : v = t
        · subst hvt; simp at hv
        · rw [move_pc_ne _ hvt] at hv
          exact hkeep (by simp) v e hv
  exact hall.2.2 t c ht

end Serial

/-! ## No wakeup is lost -/

section Wakeup
variable {τ σ call ret cv : Type} [DecidableEq cv] {M : Code σ call ret cv}

/-- What the condition variables announce, in units, under an invariant of the
shared state. A body that is not blocked takes one unit of what it waits for and
adds at most one of what it signals. -/
structure Resource (M : Code σ call ret cv) (I : σ → Prop) where
  avail : cv → σ → Nat
  keep : ∀ {x c y r}, I x → M.blocked c x = false → M.body c x = .ok (y, r) → I y
  empty : ∀ {x c}, I x → M.blocked c x = true → avail (M.waits c) x = 0
  take : ∀ {x c y r}, I x → M.blocked c x = false → M.body c x = .ok (y, r) →
    ∀ k, avail k y ≤ (avail k x - if M.waits c = k then 1 else 0) + if M.signals c = k then 1 else 0

/-- The thread will test for `k`, take a unit of it, or send its signal. -/
def Code.serves (M : Code σ call ret cv) (k : cv) : Pc call ret → Nat
  | .testing c | .blocking c | .woken c | .inside c => if M.waits c = k then 1 else 0
  | .signalling c _ => if M.signals c = k then 1 else 0
  | .idle | .entering _ | .waiting _ | .leaving _ _ => 0

variable [Fintype τ]

def Code.serving (M : Code σ call ret cv) (k : cv) (s : State τ σ call ret) : Nat :=
  ∑ t, M.serves k (s.pc t)

/-- Whenever somebody sleeps on `k`, the threads on their way cover what is available. -/
def Covered {I : σ → Prop} (R : Resource M I) (s : State τ σ call ret) : Prop :=
  ∀ k, (∃ u, M.sleepsOn k (s.pc u) = true) → R.avail k s.shared ≤ M.serving k s

variable {s : State τ σ call ret} {I : σ → Prop}

theorem serves_le_serving (k : cv) (t : τ) : M.serves k (s.pc t) ≤ M.serving k s :=
  Finset.single_le_sum (f := fun u => M.serves k (s.pc u)) (fun _ _ => Nat.zero_le _)
    (Finset.mem_univ t)

variable [DecidableEq τ]

theorem serving_move (k : cv) (t : τ) (p : Pc call ret) :
    M.serving k (s.move t p) + M.serves k (s.pc t) = M.serving k s + M.serves k p := by
  have hcomp : ∀ u, M.serves k ((s.move t p).pc u) =
      Function.update (fun u => M.serves k (s.pc u)) t (M.serves k p) u := by
    intro u
    by_cases hut : u = t
    · subst hut; simp
    · rw [move_pc_ne p hut, Function.update_of_ne hut]
  have hsum := Finset.sum_update_of_mem (Finset.mem_univ t) (fun u => M.serves k (s.pc u))
    (M.serves k p)
  have hsplit := Finset.add_sum_erase Finset.univ (fun u => M.serves k (s.pc u)) (Finset.mem_univ t)
  unfold Code.serving
  simp only [hcomp, hsum]
  rw [Finset.sdiff_singleton_eq_erase]
  omega

omit [Fintype τ] in
/-- A thread that moves to where it does not sleep leaves the sleepers to `s`. -/
theorem sleeper_of_move {k : cv} {t : τ} {p : Pc call ret} (hp : M.sleepsOn k p = false)
    (hk : ∃ u, M.sleepsOn k ((s.move t p).pc u) = true) : ∃ u, M.sleepsOn k (s.pc u) = true := by
  obtain ⟨u, hu⟩ := hk
  by_cases hut : u = t
  · subst hut; simp [hp] at hu
  · exact ⟨u, by rwa [← move_pc_ne p hut]⟩

/-- So does the cover, if the thread serves no less there. -/
theorem Covered.moved {R : Resource M I} (h : Covered R s) {t : τ} {p : Pc call ret} {o : Option τ}
    (hp : ∀ k, M.sleepsOn k p = false) (hle : ∀ k, M.serves k (s.pc t) ≤ M.serves k p) :
    Covered R { s.move t p with owner := o } := by
  intro k hk
  have hcov := h k (sleeper_of_move (hp k) hk)
  have hmove := serving_move (M := M) (s := s) k t p
  have hk := hle k
  change R.avail k s.shared ≤ M.serving k (s.move t p)
  omega

theorem Covered.step {R : Resource M I} {s' : State τ σ call ret} (h : Covered R s)
    (hinv : Inv M s) (hI : I s.shared) (hm : Move M s s') : Covered R s' := by
  cases hm with
  | call hpc | lock hpc _ | pass hpc _ | fail hpc _ | wake hpc | relock hpc _ | leave hpc =>
    exact h.moved (fun _ => rfl) fun k => by simp [hpc, Code.serves]
  | @block t c hpc =>
    intro k hk
    change R.avail k s.shared ≤ M.serving k (s.move t (.waiting c))
    have hmove := serving_move (M := M) (s := s) k t (.waiting c)
    simp only [hpc, Code.serves] at hmove
    by_cases hck : M.waits c = k
    · -- the new sleeper has found nothing available
      have hnone := R.empty hI (hinv.failed t c hpc)
      rw [hck] at hnone
      omega
    · have hcov := h k (sleeper_of_move (by simp [Code.sleepsOn, hck]) hk)
      rw [if_neg hck] at hmove
      omega
  | @body t c y r hpc hbody =>
    intro k hk
    change R.avail k y ≤ M.serving k (s.move t (.signalling c r))
    have hcov := h k (sleeper_of_move (s := s) (p := .signalling c r) rfl hk)
    have hmove := serving_move (M := M) (s := s) k t (.signalling c r)
    have hone := serves_le_serving (M := M) (s := s) k t
    have htake := R.take hI (hinv.passed t c hpc) hbody k
    simp only [hpc, Code.serves] at hmove hone
    omega
  | @signal t c r hpc hnone =>
    intro k hk
    change R.avail k s.shared ≤ M.serving k (s.move t (.leaving c r))
    have hsl := sleeper_of_move (s := s) (p := .leaving c r) rfl hk
    have hcov := h k hsl
    have hmove := serving_move (M := M) (s := s) k t (.leaving c r)
    simp only [hpc, Code.serves] at hmove
    by_cases hck : M.signals c = k
    · -- nobody sleeps on what is signalled
      obtain ⟨u, hu⟩ := hsl
      rw [← hck, hnone u] at hu
      cases hu
    · rw [if_neg hck] at hmove
      omega
  | @signalTo t u c d r hpc hu hd =>
    intro k hk
    change R.avail k s.shared ≤ M.serving k ((s.move u (.woken d)).move t (.leaving c r))
    have hne : t ≠ u := by rintro rfl; rw [hpc] at hu; cases hu
    have hpc' : (s.move u (.woken d)).pc t = .signalling c r := by rw [move_pc_ne _ hne, hpc]
    have hcov := h k (sleeper_of_move rfl (sleeper_of_move (s := s.move u (.woken d)) rfl hk))
    -- the woken thread takes the place of the one that signalled
    have hwake := serving_move (M := M) (s := s) k u (.woken d)
    have hleave := serving_move (M := M) (s := s.move u (.woken d)) k t (.leaving c r)
    simp only [hu, hpc', Code.serves, hd] at hwake hleave
    omega

/-- No thread holds the mutex, and none is awake on its way to re-acquire it. -/
def Quiet (s : State τ σ call ret) : Prop :=
  ∀ t, (s.pc t).holds = false ∧ ∀ c, s.pc t ≠ .woken c

omit [DecidableEq τ] in
theorem Quiet.serving {s : State τ σ call ret} (h : Quiet s) (k : cv) : M.serving k s = 0 := by
  refine Finset.sum_eq_zero fun t _ => ?_
  obtain ⟨hh, hw⟩ := h t
  cases hp : s.pc t with
  | idle | entering _ | waiting _ | leaving _ _ => rfl
  | woken c => exact absurd hp (hw c)
  | testing _ | blocking _ | inside _ | signalling _ _ => rw [hp] at hh; cases hh

theorem Code.Run.covered (R : Resource M I) {x : σ} {E : σ → Prop} (h : M.Run E (State.start x) s)
    (hE : E x) (hI : I x) : Covered R s := by
  refine (h.invariant (I := fun s => Inv M s ∧ I s.shared ∧ Covered R s) ?_ ?_ hE).2.2
  · exact ⟨Inv.start M x, hI, fun k ⟨u, hu⟩ => by simp [State.start, Code.sleepsOn] at hu⟩
  · rintro s s' ⟨hinv, hIs, hcov⟩ _ hm
    refine ⟨hinv.step hm, ?_, hcov.step hinv hIs hm⟩
    cases hm with
    | body hpc hbody => exact R.keep hIs (hinv.passed _ _ hpc) hbody
    | call | lock | pass | fail | block | wake | relock | signal | signalTo | leave => exact hIs

/-- **No lost wakeup.** In a reachable quiet state a thread sleeps only on a condition
variable of which nothing is available. -/
theorem no_lost_wakeup (R : Resource M I) {x : σ} {E : σ → Prop} (h : M.Run E (State.start x) s)
    (hE : E x) (hI : I x) (hq : Quiet s) {t : τ} {c : call} (ht : s.pc t = .waiting c) :
    R.avail (M.waits c) s.shared = 0 := by
  have hcov := h.covered R hE hI (M.waits c) ⟨t, by simp [ht, Code.sleepsOn]⟩
  rw [hq.serving] at hcov
  omega

end Wakeup

end Monitor
