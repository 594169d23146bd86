import Mikelibc.Lib.Monitor

/-! # Threads with programs

Every thread of a monitor has a list of calls to make, one after the other. Two facts hold of
every such program, whatever the monitor. A run ends: the steps made are bounded by the calls of
the program and the times a waiter wakes by itself (`runJob_length`). And where no thread can go
on, none of them is anywhere but at the end of its program or asleep (`Stuck.resting`). -/
namespace Monitor
open CSem

/-- The state of the monitor, and the calls every thread has still to make. -/
structure Job (τ σ call ret : Type) where
  state : State τ σ call ret
  todo : τ → List call

section Semantics
variable {τ σ call ret cv : Type} [DecidableEq τ]

def Job.start (x : σ) (prog : τ → List call) : Job τ σ call ret := ⟨State.start x, prog⟩

variable [Fintype τ] [DecidableEq cv] [DecidableEq call] (M : Code σ call ret cv)

/-- One step. A thread makes the call that is next in its program. -/
def Code.jobNext (j : Job τ σ call ret) : Act τ call → Option (Job τ σ call ret)
  | .call t c => match j.todo t with
    | [] => none
    | d :: rest =>
      if d = c then
        (M.next j.state (.call t c)).map fun s => ⟨s, Function.update j.todo t rest⟩
      else none
  | a => (M.next j.state a).map fun s => ⟨s, j.todo⟩

def Code.runJob (j : Job τ σ call ret) : List (Act τ call) → Option (Job τ σ call ret)
  | [] => some j
  | a :: as => (M.jobNext j a).bind fun j => runJob j as

def Act.isWake : Act τ call → Bool
  | .wake _ => true
  | _ => false

def wakes (as : List (Act τ call)) : Nat := as.countP Act.isWake

/-- No thread can go on, unless a waiter wakes by itself. -/
def Code.Stuck (j : Job τ σ call ret) : Prop := ∀ a, Act.isWake a = false → M.jobNext j a = none

def Job.Finished (j : Job τ σ call ret) : Prop := ∀ t, j.todo t = [] ∧ j.state.pc t = .idle

def calls (prog : τ → List call) : Nat := ∑ t, (prog t).length

variable {M} {j j' : Job τ σ call ret} {a : Act τ call} {as : List (Act τ call)}

theorem jobNext_next (h : M.jobNext j a = some j') :
    M.next j.state a = some j'.state ∧ ((∃ t c, a = .call t c ∧ j.todo t = c :: j'.todo t ∧
      ∀ u, u ≠ t → j'.todo u = j.todo u) ∨ ((∀ t c, a ≠ .call t c) ∧ j'.todo = j.todo)) := by
  cases a with
  | call t c =>
    simp only [Code.jobNext] at h
    split at h
    · cases h
    · next d rest htodo =>
      split at h
      · next hd =>
        obtain ⟨s, hs, rfl⟩ := Option.map_eq_some_iff.mp h
        refine ⟨hs, .inl ⟨t, c, rfl, ?_, fun u hu => Function.update_of_ne hu _ _⟩⟩
        rw [htodo, hd]
        simp
      · cases h
  | lock | test | block | wake | relock | body | leave =>
    obtain ⟨s, hs, rfl⟩ := Option.map_eq_some_iff.mp h
    exact ⟨hs, .inr ⟨by simp, rfl⟩⟩
  | signal t u =>
    obtain ⟨s, hs, rfl⟩ := Option.map_eq_some_iff.mp h
    exact ⟨hs, .inr ⟨by simp, rfl⟩⟩

theorem runJob_run : ∀ {as : List (Act τ call)} {j j' : Job τ σ call ret},
    M.runJob j as = some j' → M.Run (fun _ => True) j.state j'.state := by
  intro as
  induction as with
  | nil => intro j j' h; cases h; exact .refl
  | cons a as ih =>
    intro j j' h
    obtain ⟨i, hi, h⟩ := Option.bind_eq_some_iff.mp h
    exact .head ⟨⟨a, (jobNext_next hi).1⟩, trivial⟩ (ih h)

end Semantics

/-! ## A run ends -/

section Cost
variable {τ σ call ret cv : Type} [DecidableEq τ] [Fintype τ]

/-- The steps that a call has still to make from here, at most: a signal pays for the steps of the
waiter it wakes. -/
def Pc.cost : Pc call ret → Nat
  | .idle => 0
  | .entering _ => 8
  | .testing _ => 7
  | .blocking _ => 6
  | .waiting _ => 5
  | .woken _ => 8
  | .inside _ => 6
  | .signalling _ _ => 5
  | .leaving _ _ => 1

def State.cost (s : State τ σ call ret) : Nat := ∑ t, (s.pc t).cost

/-- The steps that all the threads have still to make: nine for a call to come. -/
def Job.cost (j : Job τ σ call ret) : Nat := j.state.cost + 9 * calls j.todo

theorem sum_move (f : τ → Pc call ret → Nat) (s : State τ σ call ret) (t : τ) (p : Pc call ret) :
    ∑ u, f u ((s.move t p).pc u) + f t (s.pc t) = ∑ u, f u (s.pc u) + f t p := by
  have hrest : ∑ u ∈ Finset.univ.erase t, f u ((s.move t p).pc u) =
      ∑ u ∈ Finset.univ.erase t, f u (s.pc u) :=
    Finset.sum_congr rfl fun u hu => by rw [move_pc_ne p (Finset.ne_of_mem_erase hu)]
  have hnew := Finset.add_sum_erase Finset.univ (fun u => f u ((s.move t p).pc u))
    (Finset.mem_univ t)
  have hold := Finset.add_sum_erase Finset.univ (fun u => f u (s.pc u)) (Finset.mem_univ t)
  simp only [move_pc_self] at hnew
  omega

theorem cost_move (s : State τ σ call ret) (t : τ) (p : Pc call ret) :
    (s.move t p).cost + (s.pc t).cost = s.cost + p.cost :=
  sum_move (fun _ => Pc.cost) s t p

variable [DecidableEq cv] {M : Code σ call ret cv} {s s' : State τ σ call ret}

/-- What a step may add to the steps still to come, itself included. -/
def Act.adds : Act τ call → Nat
  | .call _ _ => 9
  | .wake _ => 4
  | _ => 0

/-- Every other step takes one away. -/
theorem next_cost {a : Act τ call} (h : M.next s a = some s') : s'.cost + 1 ≤ s.cost + a.adds := by
  have hmove : ∀ (t : τ) (p : Pc call ret) {n : Nat}, p.cost + 1 ≤ (s.pc t).cost + n →
      (s.move t p).cost + 1 ≤ s.cost + n := fun t p n hle => by
    have := cost_move s t p
    omega
  unfold Code.next at h
  split at h <;> split at h <;> (try cases h)
  · next hpc => exact hmove _ _ (by rw [hpc]; exact Nat.le_refl _)
  · next hpc _ => exact hmove _ _ (by rw [hpc]; exact Nat.le_refl _)
  · next hpc =>
    refine hmove _ _ ?_
    rw [hpc]
    split <;> exact Nat.le_refl _
  · next hpc => exact hmove _ _ (by rw [hpc]; exact Nat.le_refl _)
  · next hpc => exact hmove _ _ (by rw [hpc]; exact Nat.le_refl _)
  · next hpc _ => exact hmove _ _ (by rw [hpc]; exact Nat.le_refl _)
  · next hpc =>
    split at h <;> cases h
    exact hmove _ _ (by rw [hpc]; exact Nat.le_refl _)
  · next hpc =>
    split at h <;> cases h
    exact hmove _ _ (by rw [hpc]; simp [Pc.cost, Act.adds])
  · next t u _ _ c r d hpc hu =>
    split at h <;> cases h
    -- the waiter's steps are paid for by the signal
    have hne : t ≠ u := by rintro rfl; rw [hpc] at hu; cases hu
    have hwake := cost_move s u (.woken d)
    have hleave := cost_move (s.move u (.woken d)) t (.leaving c r)
    rw [move_pc_ne _ hne, hpc] at hleave
    rw [hu] at hwake
    simp only [Pc.cost] at hwake hleave
    omega
  · next hpc => exact hmove _ _ (by rw [hpc]; exact Nat.le_refl _)

variable [DecidableEq call] {j j' : Job τ σ call ret} {a : Act τ call} {as : List (Act τ call)}

omit [DecidableEq call] in
theorem calls_pop {todo todo' : τ → List call} {t : τ} {c : call} (ht : todo t = c :: todo' t)
    (hu : ∀ u, u ≠ t → todo' u = todo u) : calls todo = calls todo' + 1 := by
  have hrest : ∑ u ∈ Finset.univ.erase t, (todo' u).length =
      ∑ u ∈ Finset.univ.erase t, (todo u).length :=
    Finset.sum_congr rfl fun u h => by rw [hu u (Finset.ne_of_mem_erase h)]
  have hnew := Finset.add_sum_erase Finset.univ (fun u => (todo' u).length) (Finset.mem_univ t)
  have hold := Finset.add_sum_erase Finset.univ (fun u => (todo u).length) (Finset.mem_univ t)
  simp only [ht, List.length_cons] at hold
  unfold calls
  omega

theorem jobNext_cost (h : M.jobNext j a = some j') :
    j'.cost + 1 ≤ j.cost + if a.isWake then 4 else 0 := by
  obtain ⟨hnext, hcall⟩ := jobNext_next h
  have hcost := next_cost hnext
  unfold Job.cost
  obtain ⟨t, c, rfl, ht, hu⟩ | ⟨hno, hsame⟩ := hcall
  · have hpop := calls_pop ht hu
    simp only [Act.adds] at hcost
    omega
  · rw [hsame]
    have hadds : a.adds ≤ if a.isWake then 4 else 0 := by
      cases a with
      | call t c => exact absurd rfl (hno t c)
      | lock | test | block | wake | relock | body | signal | leave => exact Nat.le_refl _
    omega

/-- A run pays for its steps. -/
theorem runJob_cost : ∀ {as : List (Act τ call)} {j j' : Job τ σ call ret},
    M.runJob j as = some j' → j'.cost + as.length ≤ j.cost + 4 * wakes as := by
  intro as
  induction as with
  | nil => intro j j' h; cases h; exact Nat.le_refl _
  | cons a as ih =>
    intro j j' h
    obtain ⟨i, hi, h⟩ := Option.bind_eq_some_iff.mp h
    have hstep := jobNext_cost hi
    have hrest := ih h
    have hwakes : wakes (a :: as) = wakes as + if a.isWake then 1 else 0 := List.countP_cons
    rw [hwakes, List.length_cons]
    cases hw : a.isWake <;> simp only [hw, Bool.false_eq_true, if_true, if_false] at hstep ⊢ <;> omega

/-- **A run ends.** It has at most nine steps for a call of the program, and four more for each time
a waiter wakes by itself. -/
theorem runJob_length {x : σ} {prog : τ → List call} (h : M.runJob (Job.start x prog) as = some j) :
    as.length ≤ 9 * calls prog + 4 * wakes as := by
  have hcost := runJob_cost h
  have hstart : (Job.start x prog : Job τ σ call ret).cost = 9 * calls prog := by
    simp [Job.cost, Job.start, State.cost, State.start, Pc.cost]
  omega

/-- So a run can be continued until no thread can go on, without a waiter that wakes by itself. -/
theorem exists_stuck (M : Code σ call ret cv) (j : Job τ σ call ret) :
    ∃ as j', M.runJob j as = some j' ∧ wakes as = 0 ∧ M.Stuck j' := by
  obtain ⟨n, hn⟩ : ∃ n, j.cost ≤ n := ⟨_, Nat.le_refl _⟩
  induction n generalizing j with
  | zero =>
    refine ⟨[], j, rfl, rfl, fun a ha => ?_⟩
    by_contra hgo
    obtain ⟨i, hi⟩ := Option.ne_none_iff_exists'.mp hgo
    have hcost := jobNext_cost hi
    rw [ha] at hcost
    simp only [Bool.false_eq_true, if_false] at hcost
    omega
  | succ n ih =>
    by_cases hstuck : M.Stuck j
    · exact ⟨[], j, rfl, rfl, hstuck⟩
    · simp only [Code.Stuck, not_forall] at hstuck
      obtain ⟨a, ha, hgo⟩ := hstuck
      obtain ⟨i, hi⟩ := Option.ne_none_iff_exists'.mp hgo
      have hcost := jobNext_cost hi
      rw [ha] at hcost
      simp only [Bool.false_eq_true, if_false] at hcost
      obtain ⟨as, j', hrun, hwakes, hstuck⟩ := ih i (by omega)
      refine ⟨a :: as, j', by simp [Code.runJob, hi, hrun], ?_, hstuck⟩
      rw [wakes, List.countP_cons, ← wakes, hwakes, ha]
      rfl

end Cost

/-! ## Where no thread can go on -/

section Stuck
variable {τ σ call ret cv : Type} [DecidableEq τ] [Fintype τ] [DecidableEq cv] [DecidableEq call]
  {M : Code σ call ret cv} {j : Job τ σ call ret}

/-- Whoever has the mutex can go on, if its body ends. -/
theorem Code.Stuck.free (h : M.Stuck j) (hinv : Inv M j.state)
    (hbody : ∀ t c, j.state.pc t = .inside c → ∃ q, M.body c j.state.shared = .ok q) :
    j.state.owner = none := by
  by_contra howned
  obtain ⟨t, ht⟩ := Option.ne_none_iff_exists'.mp howned
  have hholds := (hinv.mutex t).mpr ht
  have hno : ∀ a, a.isWake = false → (∀ t c, a ≠ Act.call t c) → M.next j.state a = none := by
    intro a hw hc
    have := h a hw
    cases a with
    | call t c => exact absurd rfl (hc t c)
    | lock | test | block | wake | relock | body | leave => simpa [Code.jobNext] using this
    | signal t u => simpa [Code.jobNext] using this
  cases hpc : j.state.pc t with
  | idle | entering | waiting | woken => rw [hpc] at hholds; cases hholds
  | testing c => simpa [Code.next, hpc] using hno (.test t) rfl (by simp)
  | blocking c => simpa [Code.next, hpc] using hno (.block t) rfl (by simp)
  | inside c =>
    obtain ⟨⟨x, r⟩, hx⟩ := hbody t c hpc
    simpa [Code.next, hpc, hx] using hno (.body t) rfl (by simp)
  | signalling c r =>
    by_cases hsl : ∀ u, M.sleepsOn (M.signals c) (j.state.pc u) = false
    · have := hno (.signal t none) rfl (by simp)
      simp only [Code.next, hpc] at this
      rw [if_pos hsl] at this
      cases this
    · obtain ⟨u, hu⟩ := not_forall.mp hsl
      rw [Bool.not_eq_false] at hu
      cases hpu : j.state.pc u with
      | waiting d =>
        have hd : M.waits d = M.signals c := by simpa [Code.sleepsOn, hpu] using hu
        simpa [Code.next, hpc, hpu, hd] using hno (.signal t (some u)) rfl (by simp)
      | idle | entering | testing | blocking | woken | inside | signalling | leaving =>
        rw [hpu] at hu
        cases hu
  | leaving c r => simpa [Code.next, hpc] using hno (.leave t) rfl (by simp)

/-- **Where no thread can go on**, nobody has the mutex or is awake on its way to it, and every
thread is at the end of its program, or asleep. -/
theorem Code.Stuck.resting (h : M.Stuck j) (hinv : Inv M j.state)
    (hbody : ∀ t c, j.state.pc t = .inside c → ∃ q, M.body c j.state.shared = .ok q) :
    Quiet j.state ∧
      ∀ t, (j.state.pc t = .idle ∧ j.todo t = []) ∨ ∃ c, j.state.pc t = .waiting c := by
  have hfree := h.free hinv hbody
  have hout : ∀ t, (j.state.pc t).holds = false := fun t => by
    rw [Bool.eq_false_iff]
    intro hh
    have := (hinv.mutex t).mp hh
    rw [hfree] at this
    cases this
  have hplace : ∀ t, (j.state.pc t = .idle ∧ j.todo t = []) ∨ ∃ c, j.state.pc t = .waiting c := by
    intro t
    have hholds := hout t
    cases hpc : j.state.pc t with
    | idle =>
      cases htodo : j.todo t with
      | nil => exact .inl ⟨rfl, rfl⟩
      | cons c rest =>
        have := h (.call t c) rfl
        simp [Code.jobNext, Code.next, htodo, hpc] at this
    | entering c =>
      have := h (.lock t) rfl
      simp [Code.jobNext, Code.next, hpc, hfree] at this
    | woken c =>
      have := h (.relock t) rfl
      simp [Code.jobNext, Code.next, hpc, hfree] at this
    | waiting c => exact .inr ⟨c, rfl⟩
    | testing | blocking | inside | signalling | leaving => rw [hpc] at hholds; cases hholds
  refine ⟨fun t => ⟨hout t, fun c hpc => ?_⟩, hplace⟩
  rcases hplace t with ⟨hidle, _⟩ | ⟨d, hd⟩
  · rw [hpc] at hidle; cases hidle
  · rw [hpc] at hd; cases hd

end Stuck

/-! ## What has become of the calls -/

section Account
variable {τ σ call ret cv : Type} [DecidableEq τ]

def loggedBy (t : τ) (log : List (τ × call × ret)) : List call :=
  (log.filter fun e => e.1 = t).map fun e => e.2.1

def Pc.toRun : Pc call ret → List call
  | .entering c | .testing c | .blocking c | .waiting c | .woken c | .inside c => [c]
  | .idle | .signalling _ _ | .leaving _ _ => []

def Act.begins (u : τ) : Act τ call → List call
  | .call t c => if u = t then [c] else []
  | _ => []

/-- The calls of a thread: those whose bodies have run, the one it is in, and those to come. -/
def Job.account (j : Job τ σ call ret) (t : τ) : List call :=
  loggedBy t j.state.log ++ (j.state.pc t).toRun ++ j.todo t

theorem loggedBy_append (t : τ) (log log' : List (τ × call × ret)) :
    loggedBy t (log ++ log') = loggedBy t log ++ loggedBy t log' := by
  simp [loggedBy]

theorem loggedBy_self (t : τ) (c : call) (r : ret) : loggedBy t [(t, c, r)] = [c] := by
  simp [loggedBy]

theorem loggedBy_other {t u : τ} (h : u ≠ t) (c : call) (r : ret) :
    loggedBy u [(t, c, r)] = [] := by
  simp [loggedBy, Ne.symm h]

variable [Fintype τ]

theorem countP_log (f : call → Bool) (log : List (τ × call × ret)) :
    log.countP (fun e => f e.2.1) = ∑ t, (loggedBy t log).countP f := by
  induction log with
  | nil => simp [loggedBy]
  | cons e log ih =>
    obtain ⟨t, c, r⟩ := e
    have hsplit : ∀ u, (loggedBy u ((t, c, r) :: log)).countP f =
        (loggedBy u log).countP f + if u = t then (if f c then 1 else 0) else 0 := by
      intro u
      rw [← List.singleton_append, loggedBy_append, List.countP_append, Nat.add_comm]
      by_cases hu : u = t
      · rw [hu, loggedBy_self, if_pos rfl, List.countP_singleton]
      · rw [loggedBy_other hu, if_neg hu, List.countP_nil]
    rw [List.countP_cons, ih, Finset.sum_congr rfl fun u _ => hsplit u, Finset.sum_add_distrib,
      Finset.sum_ite_eq' Finset.univ t, if_pos (Finset.mem_univ t)]

variable [DecidableEq cv] {M : Code σ call ret cv} {s s' : State τ σ call ret}

/-- A step moves a call of its thread on, and no call is lost on the way. -/
theorem next_account {a : Act τ call} (h : M.next s a = some s') (u : τ) :
    loggedBy u s'.log ++ (s'.pc u).toRun = loggedBy u s.log ++ (s.pc u).toRun ++ a.begins u := by
  have hmove : ∀ (s : State τ σ call ret) (t : τ) (p : Pc call ret), p.toRun = (s.pc t).toRun →
      ((s.move t p).pc u).toRun = (s.pc u).toRun := fun s t p hp => by
    by_cases hu : u = t
    · rw [hu, move_pc_self, hp]
    · rw [move_pc_ne p hu]
  cases a with
  | call t c =>
    simp only [Code.next] at h
    split at h <;> cases h
    next hpc =>
    by_cases hu : u = t
    · rw [hu, move_pc_self, hpc]
      simp [Pc.toRun, Act.begins]
    · rw [move_pc_ne _ hu, Act.begins, if_neg hu, List.append_nil]
      rfl
  | lock t | relock t =>
    simp only [Code.next] at h
    split at h <;> cases h
    next hpc _ => simpa [Act.begins] using hmove s _ _ (by rw [hpc]; rfl)
  | test t =>
    simp only [Code.next] at h
    split at h <;> cases h
    next hpc =>
    simpa [Act.begins] using hmove s _ _ (by rw [hpc]; split <;> rfl)
  | block t | wake t | leave t =>
    simp only [Code.next] at h
    split at h <;> cases h
    next hpc => simpa [Act.begins] using hmove s _ _ (by rw [hpc]; rfl)
  | body t =>
    simp only [Code.next] at h
    split at h
    · next c hpc =>
      split at h <;> cases h
      next x r hx =>
      simp only [loggedBy_append, Act.begins, List.append_nil]
      by_cases hu : u = t
      · subst hu
        simp [hpc, loggedBy_self, Pc.toRun, State.move]
      · have hpcu := move_pc_ne (s := s) (Pc.signalling c r) hu
        rw [loggedBy_other hu, List.append_nil]
        exact congrArg (fun p => loggedBy u s.log ++ Pc.toRun p) hpcu
    · cases h
  | signal t v =>
    cases v with
    | none =>
      simp only [Code.next] at h
      split at h
      · next hpc =>
        split at h <;> cases h
        simpa [Act.begins] using hmove s _ _ (by rw [hpc]; rfl)
      · cases h
    | some v =>
      simp only [Code.next] at h
      split at h
      · next c r d hpc hv =>
        split at h <;> cases h
        have hne : t ≠ v := by rintro rfl; rw [hpc] at hv; cases hv
        have hleave := hmove (s.move v (.woken d)) t (.leaving c r)
          (by rw [move_pc_ne _ hne, hpc]; rfl)
        simpa [Act.begins] using hleave.trans (hmove s v (.woken d) (by rw [hv]; rfl))
      · cases h

variable [DecidableEq call] {j : Job τ σ call ret}

/-- **No call is lost**: at any time the calls of a thread's program are those whose bodies have
run, the one it is in, and those to come. -/
theorem runJob_account : ∀ {as : List (Act τ call)} {i j : Job τ σ call ret},
    M.runJob i as = some j → j.account = i.account := by
  intro as
  induction as with
  | nil => intro i j h; cases h; rfl
  | cons a as ih =>
    intro i j h
    obtain ⟨k, hk, h⟩ := Option.bind_eq_some_iff.mp h
    rw [ih h]
    obtain ⟨hnext, hcall⟩ := jobNext_next hk
    funext u
    have haccount := next_account hnext u
    unfold Job.account
    obtain ⟨t, c, rfl, ht, hu⟩ | ⟨hno, hsame⟩ := hcall
    · rw [haccount, Act.begins]
      by_cases hut : u = t
      · rw [hut, if_pos rfl, ht, List.append_assoc]
        rfl
      · rw [if_neg hut, hu u hut, List.append_nil]
    · rw [haccount, hsame]
      cases a with
      | call t c => exact absurd rfl (hno t c)
      | lock | test | block | wake | relock | body | signal | leave => simp [Act.begins]

def Job.left (j : Job τ σ call ret) (t : τ) : List call := (j.state.pc t).toRun ++ j.todo t

variable {x : σ} {prog : τ → List call} {as : List (Act τ call)}

theorem runJob_left (h : M.runJob (Job.start x prog) as = some j) (t : τ) :
    loggedBy t j.state.log ++ j.left t = prog t := by
  have haccount := congrFun (runJob_account h) t
  simpa [Job.account, Job.left, Job.start, State.start, loggedBy, Pc.toRun] using haccount

/-- The calls of a kind that have run and those that are left are those of the program. -/
theorem runJob_countP (f : call → Bool) (h : M.runJob (Job.start x prog) as = some j) :
    j.state.log.countP (fun e => f e.2.1) + ∑ t, (j.left t).countP f = ∑ t, (prog t).countP f := by
  rw [countP_log, ← Finset.sum_add_distrib]
  exact Finset.sum_congr rfl fun t _ => by rw [← List.countP_append, runJob_left h]

/-- Where every thread makes calls of one kind only and no thread sleeps in a call of that kind,
none of the kind is left when no thread can go on. -/
theorem left_none (f : call → Bool) (h : M.runJob (Job.start x prog) as = some j)
    (hkinds : ∀ t, (∀ c ∈ prog t, f c = true) ∨ ∀ c ∈ prog t, f c = false)
    (hrest : ∀ t, (j.state.pc t = .idle ∧ j.todo t = []) ∨ ∃ c, j.state.pc t = .waiting c)
    (hno : ∀ t c, j.state.pc t = .waiting c → f c = false) : ∑ t, (j.left t).countP f = 0 := by
  refine Finset.sum_eq_zero fun t _ => ?_
  rcases hrest t with ⟨hidle, htodo⟩ | ⟨c, hc⟩
  · simp [Job.left, hidle, htodo, Pc.toRun]
  · have hleft : ∀ d ∈ j.left t, d ∈ prog t := fun d hd => by
      rw [← runJob_left h t]
      exact List.mem_append_right _ hd
    have hmem : c ∈ prog t := hleft c (by simp [Job.left, hc, Pc.toRun])
    rcases hkinds t with hall | hnone
    · have := hall c hmem
      rw [hno t c hc] at this
      cases this
    · exact List.countP_eq_zero.mpr fun d hd => by rw [hnone d (hleft d hd)]; exact Bool.false_ne_true

omit [DecidableEq τ] [DecidableEq cv] [DecidableEq call] in
theorem left_pos (f : call → Bool) {t : τ} {c : call} (hc : j.state.pc t = .waiting c)
    (hf : f c = true) : 0 < ∑ t, (j.left t).countP f := by
  refine Nat.lt_of_lt_of_le ?_ (Finset.single_le_sum (f := fun u => (j.left u).countP f)
    (fun _ _ => Nat.zero_le _) (Finset.mem_univ t))
  simp [Job.left, hc, Pc.toRun, hf]

end Account

end Monitor
