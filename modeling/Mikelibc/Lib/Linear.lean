import Mikelibc.Lib.Monitor

/-! # What the threads of a monitor see

From outside a thread is seen to call and to return. The history of a run is linearizable when there
is one order of operations that every thread's calls and answers agree with, and that does not
contradict real time: what has returned comes before what has not been called yet. The order in
which the bodies run is such an order, for every monitor (`Traces.linearizes`). -/
namespace Monitor
open CSem

/-! ## Histories -/

inductive Event (τ call ret : Type) where
  | call (t : τ) (c : call)
  | ret (t : τ) (r : ret)
  deriving DecidableEq

section Histories
variable {τ call ret : Type} [DecidableEq τ]

def Event.thread : Event τ call ret → τ
  | .call t _ | .ret t _ => t

def seenBy (t : τ) (H : List (Event τ call ret)) : List (Event τ call ret) :=
  H.filter fun e => e.thread = t

def opsOf (t : τ) (S : List (τ × call × ret)) : List (call × ret) :=
  (S.filter fun o => o.1 = t).map Prod.snd

/-- Operations one after the other, as they are seen. -/
def sequence (t : τ) (ops : List (call × ret)) : List (Event τ call ret) :=
  ops.flatMap fun o => [.call t o.1, .ret t o.2]

/-- What is seen of the thread agrees with its operations: all have returned, and it is perhaps in
another call that has had no effect yet; or it has still to return from the last one. -/
def Agrees (t : τ) (h : List (Event τ call ret)) (ops : List (call × ret)) : Prop :=
  h = sequence t ops ∨ (∃ c, h = sequence t ops ++ [.call t c]) ∨ ∃ r, h ++ [.ret t r] = sequence t ops

def callsBy (t : τ) (H : List (Event τ call ret)) : Nat :=
  (seenBy t H).countP fun | .call _ _ => true | .ret _ _ => false

def returnsOf (t : τ) (H : List (Event τ call ret)) : Nat :=
  (seenBy t H).countP fun | .ret _ _ => true | .call _ _ => false

/-- The history is what is seen of the operations `S`, had they been made in this order: every
thread agrees with it, and at any time the operations so far are some that begin the order, among
them all that have returned and none that have not been called. -/
structure Linearizes (H : List (Event τ call ret)) (S : List (τ × call × ret)) : Prop where
  threads : ∀ t, Agrees t (seenBy t H) (opsOf t S)
  realTime : ∀ H₁ H₂, H = H₁ ++ H₂ → ∃ S₁ S₂, S = S₁ ++ S₂ ∧
    ∀ t, returnsOf t H₁ ≤ (opsOf t S₁).length ∧ (opsOf t S₁).length ≤ callsBy t H₁

omit [DecidableEq τ] in
theorem sequence_append (t : τ) (ops ops' : List (call × ret)) :
    sequence t (ops ++ ops') = sequence t ops ++ sequence t ops' :=
  List.flatMap_append

theorem seenBy_append (t : τ) (H H' : List (Event τ call ret)) :
    seenBy t (H ++ H') = seenBy t H ++ seenBy t H' :=
  List.filter_append ..

theorem opsOf_append (t : τ) (S S' : List (τ × call × ret)) :
    opsOf t (S ++ S') = opsOf t S ++ opsOf t S' := by
  simp [opsOf]

omit [DecidableEq τ] in
theorem countP_sequence (t : τ) (ops : List (call × ret)) :
    (sequence t ops).countP (fun | .call _ _ => true | .ret _ _ => false) = ops.length ∧
    (sequence t ops).countP (fun | .ret _ _ => true | .call _ _ => false) = ops.length := by
  induction ops with
  | nil => exact ⟨rfl, rfl⟩
  | cons o ops ih =>
    have hsplit : sequence t (o :: ops) = [.call t o.1, .ret t o.2] ++ sequence t ops :=
      List.flatMap_cons
    rw [hsplit]
    simp only [List.countP_append, ih.1, ih.2, List.length_cons]
    exact ⟨Nat.add_comm 1 _, Nat.add_comm 1 _⟩

/-- What is seen tells how many operations there are, but for one. -/
theorem Agrees.count {t : τ} {H : List (Event τ call ret)} {ops : List (call × ret)}
    (h : Agrees t (seenBy t H) ops) : returnsOf t H ≤ ops.length ∧ ops.length ≤ callsBy t H := by
  obtain ⟨hcalls, hrets⟩ := countP_sequence t ops
  unfold returnsOf callsBy
  rcases h with h | ⟨c, h⟩ | ⟨r, h⟩
  · rw [h, hcalls, hrets]
    exact ⟨Nat.le_refl _, Nat.le_refl _⟩
  · rw [h, List.countP_append, List.countP_append, hcalls, hrets]
    exact ⟨Nat.le_refl _, Nat.le_add_right _ _⟩
  · rw [← h, List.countP_append] at hcalls hrets
    exact ⟨hrets ▸ Nat.le_add_right _ _, Nat.le_of_eq hcalls.symm⟩

end Histories

/-! ## The history of a run -/

section Traces
variable {τ σ call ret cv : Type} [DecidableEq τ]

def Act.event (s : State τ σ call ret) : Act τ call → List (Event τ call ret)
  | .call t c => [.call t c]
  | .leave t => match s.pc t with
    | .leaving _ r => [.ret t r]
    | _ => []
  | _ => []

variable [Fintype τ] [DecidableEq cv]

/-- The histories of the runs within `E`, with the state that each ends in. -/
inductive Code.Traces (M : Code σ call ret cv) (E : σ → Prop) (x : σ) :
    List (Event τ call ret) → State τ σ call ret → Prop
  | start : Traces M E x [] (State.start x)
  | step {H : List (Event τ call ret)} {s s' : State τ σ call ret} {a : Act τ call} :
      Traces M E x H s → M.next s a = some s' → E s'.shared → Traces M E x (H ++ a.event s) s'

def Code.trace (M : Code σ call ret cv) (E : σ → Prop) [DecidablePred E]
    (H : List (Event τ call ret)) (s : State τ σ call ret) :
    List (Act τ call) → Option (List (Event τ call ret) × State τ σ call ret)
  | [] => some (H, s)
  | a :: as => (M.next s a).bind fun s' =>
    if E s'.shared then trace M E (H ++ a.event s) s' as else none

variable {M : Code σ call ret cv} {E : σ → Prop} {x : σ} {H : List (Event τ call ret)}
  {s s' : State τ σ call ret}

theorem Code.Traces.trace [DecidablePred E] {H' : List (Event τ call ret)} {as : List (Act τ call)}
    (h : M.Traces E x H s) (htrace : M.trace E H s as = some (H', s')) : M.Traces E x H' s' := by
  induction as generalizing H s with
  | nil => cases htrace; exact h
  | cons a as ih =>
    obtain ⟨u, hu, htrace⟩ := Option.bind_eq_some_iff.mp htrace
    split at htrace
    · next hE => exact ih (h.step hu hE) htrace
    · cases htrace

theorem Code.Traces.run (h : M.Traces E x H s) : M.Run E (State.start x) s := by
  induction h with
  | start => exact .refl
  | step _ hnext hE ih => exact ih.tail ⟨⟨_, hnext⟩, hE⟩

/-! ## The bodies are in an order that fits -/

def Pc.Shows (t : τ) (h : List (Event τ call ret)) (ops : List (call × ret)) :
    Pc call ret → Prop
  | .idle => h = sequence t ops
  | .entering c | .testing c | .blocking c | .waiting c | .woken c | .inside c =>
    h = sequence t ops ++ [.call t c]
  | .signalling _ r | .leaving _ r => h ++ [.ret t r] = sequence t ops

omit [DecidableEq τ] [Fintype τ] in
theorem Pc.Shows.agrees {t : τ} {h : List (Event τ call ret)} {ops : List (call × ret)}
    {p : Pc call ret} (hs : p.Shows t h ops) : Agrees t h ops := by
  cases p with
  | idle => exact .inl hs
  | entering c | testing c | blocking c | waiting c | woken c | inside c => exact .inr (.inl ⟨c, hs⟩)
  | signalling c r | leaving c r => exact .inr (.inr ⟨r, hs⟩)

def Shown (H : List (Event τ call ret)) (s : State τ σ call ret) : Prop :=
  ∀ t, (s.pc t).Shows t (seenBy t H) (opsOf t s.log)

omit [Fintype τ] in
/-- A thread goes to where it is seen the same. -/
theorem Shown.moved (h : Shown H s) {t : τ} {p : Pc call ret} {o : Option τ}
    (hp : p.Shows t (seenBy t H) (opsOf t s.log)) : Shown H { s.move t p with owner := o } := by
  intro u
  change Pc.Shows u _ _ ((s.move t p).pc u)
  by_cases hu : u = t
  · rw [hu, move_pc_self]
    exact hp
  · rw [move_pc_ne p hu]
    exact h u

omit [Fintype τ] in
/-- A thread calls or returns; the others are not seen to. -/
theorem Shown.seen (h : Shown H s) {t : τ} {p : Pc call ret} {o : Option τ} {e : Event τ call ret}
    (he : e.thread = t) (hp : p.Shows t (seenBy t H ++ [e]) (opsOf t s.log)) :
    Shown (H ++ [e]) { s.move t p with owner := o } := by
  intro u
  change Pc.Shows u _ _ ((s.move t p).pc u)
  rw [seenBy_append]
  by_cases hu : u = t
  · rw [hu, move_pc_self]
    simpa [seenBy, he] using hp
  · have hnone : seenBy u [e] = [] := by simp [seenBy, he, Ne.symm hu]
    rw [move_pc_ne p hu, hnone, List.append_nil]
    exact h u

/-- A step leaves every thread seen where it is. -/
theorem Shown.step {a : Act τ call} (h : Shown H s) (hnext : M.next s a = some s') :
    Shown (H ++ a.event s) s' := by
  cases a with
  | call t c =>
    simp only [Code.next] at hnext
    split at hnext <;> cases hnext
    next hpc =>
    have hidle := h t
    rw [hpc] at hidle
    have hcalls : (Pc.entering c).Shows t (seenBy t H ++ [.call t c]) (opsOf t s.log) :=
      congrArg (fun h => h ++ [Event.call t c]) hidle
    exact h.seen rfl hcalls
  | lock t | relock t =>
    simp only [Code.next] at hnext
    split at hnext <;> cases hnext
    next hpc _ =>
    have hout := h t
    rw [hpc] at hout
    simp only [Act.event, List.append_nil]
    refine h.moved ?_
    exact hout
  | test t =>
    simp only [Code.next] at hnext
    split at hnext <;> cases hnext
    next hpc =>
    have htesting := h t
    rw [hpc] at htesting
    simp only [Act.event, List.append_nil]
    refine h.moved ?_
    split <;> exact htesting
  | block t | wake t =>
    simp only [Code.next] at hnext
    split at hnext <;> cases hnext
    next hpc =>
    have hwaits := h t
    rw [hpc] at hwaits
    simp only [Act.event, List.append_nil]
    refine h.moved ?_
    exact hwaits
  | body t =>
    simp only [Code.next] at hnext
    split at hnext
    · next c hpc =>
      split at hnext <;> cases hnext
      next y r hbody =>
      simp only [Act.event, List.append_nil]
      intro u
      change Pc.Shows u _ _ ((s.move t (.signalling c r)).pc u)
      simp only [opsOf_append]
      by_cases hu : u = t
      · subst hu
        have hinside := h u
        rw [hpc] at hinside
        rw [move_pc_self]
        have hone : opsOf u [(u, c, r)] = [(c, r)] := by simp [opsOf]
        rw [hone]
        simp only [Pc.Shows] at hinside ⊢
        rw [hinside, sequence_append, List.append_assoc]
        rfl
      · have hnone : opsOf u [(t, c, r)] = [] := by simp [opsOf, Ne.symm hu]
        rw [move_pc_ne _ hu, hnone, List.append_nil]
        exact h u
    · cases hnext
  | signal t v =>
    simp only [Act.event, List.append_nil]
    cases v with
    | none =>
      simp only [Code.next] at hnext
      split at hnext
      · next hpc =>
        split at hnext <;> cases hnext
        have hsignalling := h t
        rw [hpc] at hsignalling
        refine h.moved ?_
        exact hsignalling
      · cases hnext
    | some v =>
      simp only [Code.next] at hnext
      split at hnext
      · next c r d hpc hv =>
        split at hnext <;> cases hnext
        have hsignalling := h t
        have hwaiting := h v
        rw [hpc] at hsignalling
        rw [hv] at hwaiting
        have hwoken : Shown H (s.move v (.woken d)) := by
          refine h.moved ?_
          exact hwaiting
        refine hwoken.moved ?_
        exact hsignalling
      · cases hnext
  | leave t =>
    simp only [Code.next] at hnext
    split at hnext <;> cases hnext
    next c r hpc =>
    have hleaving := h t
    rw [hpc] at hleaving
    have hevent : Act.event s (.leave t) = [.ret t r] := by simp [Act.event, hpc]
    rw [hevent]
    refine h.seen rfl ?_
    exact hleaving

omit [Fintype τ] in
/-- The operations whose bodies have run are those of the history so far. -/
theorem Shown.linearizes (h : Shown H s)
    (hbefore : ∀ H₁ H₂, H = H₁ ++ H₂ → H₂ ≠ [] → ∃ S₁ S₂, s.log = S₁ ++ S₂ ∧
      ∀ t, returnsOf t H₁ ≤ (opsOf t S₁).length ∧ (opsOf t S₁).length ≤ callsBy t H₁) :
    Linearizes H s.log := by
  refine ⟨fun t => (h t).agrees, fun H₁ H₂ hsplit => ?_⟩
  by_cases hend : H₂ = []
  · rw [hend, List.append_nil] at hsplit
    exact ⟨s.log, [], (List.append_nil _).symm, fun t => hsplit ▸ (h t).agrees.count⟩
  · exact hbefore H₁ H₂ hsplit hend

/-- A step only adds to the operations whose bodies have run. -/
theorem next_log {a : Act τ call} (hnext : M.next s a = some s') : ∃ S, s'.log = s.log ++ S := by
  have hmove := M.next_move hnext
  cases hmove with
  | body => exact ⟨_, rfl⟩
  | call | lock | pass | fail | block | wake | relock | signal | signalTo | leave =>
    exact ⟨[], (List.append_nil _).symm⟩

omit [Fintype τ] [DecidableEq τ] in
theorem event_cases (s : State τ σ call ret) (a : Act τ call) :
    a.event s = [] ∨ ∃ e, a.event s = [e] := by
  cases a with
  | call t c => exact .inr ⟨_, rfl⟩
  | leave t => cases hpc : s.pc t <;> simp [Act.event, hpc]
  | lock | test | block | wake | relock | body | signal => exact .inl rfl

/-- **Every monitor is linearizable**: the history of a run is what is seen of its operations in the
order in which their bodies run. -/
theorem Code.Traces.linearizes (h : M.Traces E x H s) : Linearizes H s.log := by
  have hall : Shown H s ∧ Linearizes H s.log := by
    induction h with
    | start =>
      have hshown : Shown [] (State.start x : State τ σ call ret) := fun t => rfl
      refine ⟨hshown, hshown.linearizes fun H₁ H₂ hsplit hne => ?_⟩
      exact absurd (List.append_eq_nil_iff.mp hsplit.symm).2 hne
    | @step H s s' a _ hnext _ ih =>
      obtain ⟨hshown, hlin⟩ := ih
      have hshown' := hshown.step hnext
      refine ⟨hshown', hshown'.linearizes fun H₁ H₂ hsplit hne => ?_⟩
      obtain ⟨S, hlog⟩ := next_log hnext
      -- the earlier history is one of the run before this step
      obtain ⟨K, hK⟩ : ∃ K, H = H₁ ++ K := by
        rcases event_cases s a with hnone | ⟨e, hone⟩
        · exact ⟨H₂, by rw [← hsplit, hnone, List.append_nil]⟩
        · rw [hone] at hsplit
          obtain ⟨K, e', rfl⟩ := List.eq_nil_or_concat' H₂ |>.resolve_left hne
          rw [← List.append_assoc] at hsplit
          exact ⟨K, (List.append_inj' hsplit rfl).1⟩
      obtain ⟨S₁, S₂, hS, hcount⟩ := hlin.realTime H₁ K hK
      exact ⟨S₁, S₂ ++ S, by rw [hlog, hS, List.append_assoc], hcount⟩
  exact hall.2

end Traces

/-! ## Operations that only look -/

/-- The monitor with one more operation, `none`, which looks at the shared state under the mutex. It
never waits, and nobody is signalled. -/
def Code.looking {σ call ret cv : Type} (M : Code σ call ret cv) (look : σ → ret) :
    Code σ (Option call) ret (Option cv) where
  blocked
    | none, _ => false
    | some c, x => M.blocked c x
  waits c := c.map M.waits
  signals c := c.map M.signals
  body
    | none, x => .ok (x, look x)
    | some c, x => M.body c x

end Monitor
