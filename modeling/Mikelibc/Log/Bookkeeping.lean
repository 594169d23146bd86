import Mikelibc.Log.Map

/-! # The counter, the list and the handles given out

`nloggers` and the list of loggers are updated in different places, and the
handles come from a third. In every state that calls pass through they agree, no
decrement of the counter finds it at zero, and a handle that has been shut down
does not come back. -/
namespace Mikelibc.Log
open CSem Linked

/-- `nloggers` counts the nodes of the list; their handles increase and are below `next_handle`. -/
def Kept (g : Globals) : Prop :=
  ∃ nodes, IsList g.heap g.mloggers nodes ∧ g.nloggers.toNat = nodes.length ∧
    (handles nodes).Pairwise (· < ·) ∧ ∀ h ∈ handles nodes, 0 ≤ h ∧ h < g.nextHandle

def freeRounds : Nat → FreeVars → Outcome FreeVars
  | 0, v => return v
  | k + 1, v => do
    let v ← freeRound v
    freeRounds k v

/-- The call takes one off the counter only where the counter is above zero. -/
def CountsDown (fuel : Nat) (g : Globals) : Op → Prop
  | .shutdownMlogger h => ∀ g', shutdownMlogger fuel h g = .ok (g', 1) →
    0 < g.nloggers.toNat ∧ g'.nloggers.toNat + 1 = g.nloggers.toNat
  | .shutdownAllMloggers => ∀ k v,
    freeRounds k ⟨g.heap, g.mloggers, g.mloggers, g.nloggers⟩ = .ok v →
    v.current ≠ none → 0 < v.nloggers.toNat
  | _ => True

variable {fuel : Nat} {g : Globals} {nodes : Loggers} {h : Int}

/-- After any rounds the counter is that of the nodes still to free. -/
theorem freeRounds_counts : ∀ (k : Nat) (l : Loggers) (v w : FreeVars), IsList v.heap v.current l →
    v.previous = v.current → v.nloggers.toNat = l.length → freeRounds k v = .ok w →
    ∃ l, IsList w.heap w.current l ∧ w.nloggers.toNat = l.length := by
  intro k
  induction k with
  | zero => intro l v w hl _ hn hrun; cases hrun; exact ⟨l, hl, hn⟩
  | succ k ih =>
    intro l v w hl hp hn hrun
    obtain ⟨u, hround, hrun⟩ := Outcome.bind_eq_ok.mp hrun
    cases l with
    | nil => simp [freeRound, IsList.nil_iff.mp hl, Store.load] at hround
    | cons c l =>
      obtain ⟨_, u', hround', hl', hp', hn'⟩ := freeRound_spec hl hp hn
      obtain rfl := Outcome.ok.inj (hround.symm.trans hround')
      exact ih l u w hl' hp' hn' hrun

theorem shutdownMlogger_counts (hr : Registered g nodes) (hf : nodes.length < fuel) {g' : Globals}
    (hs : shutdownMlogger fuel h g = .ok (g', 1)) :
    0 < g.nloggers.toNat ∧ g'.nloggers.toNat + 1 = g.nloggers.toNat := by
  obtain ⟨p, v, hs', hr', _, _, hdead, _⟩ := shutdownMlogger_spec hr hf h
  rw [hs] at hs'
  cases hs'
  have hcount := hr.count
  have hcount' := hr'.count
  -- the list has lost one node: there was one, since the call has returned 1
  rcases hr.cases h with hnone | ⟨pre, a, x, post, rfl, hx, hpre, hpost⟩
  · cases (hdead hnone).2
  · rw [remove_middle hx hpre hpost] at hcount'
    simp only [List.length_append, List.length_cons] at hcount hcount'
    omega

theorem Registered.countsDown (hr : Registered g nodes) (hf : nodes.length < fuel) (o : Op) :
    CountsDown fuel g o := by
  cases o with
  | shutdownMlogger h => exact fun g' hs => shutdownMlogger_counts hr hf hs
  | shutdownAllMloggers =>
    intro k v hrun hcurrent
    obtain ⟨l, hl, hn⟩ := freeRounds_counts k nodes _ v hr.list rfl hr.count hrun
    cases l with
    | nil => exact absurd (IsList.nil_iff.mp hl) hcurrent
    | cons c l => rw [hn]; exact Nat.succ_pos _
  | getMlogger | setloggertype | setloggersev | setloggertime | registerMlogCallback => trivial

/-- On the map, what has been issued is not issued again. -/
theorem mapCalls_issues_once (ops : List Op) :
    ∀ before c after h, mapCalls ops = before ++ c :: after → Issued h before → ¬ Issues h c := by
  induction ops using List.reverseRecOn with
  | nil => intro before c after h hsplit; simp [mapCalls, runPure] at hsplit
  | append_singleton ops o ih =>
    intro before c after h hsplit hissued
    rw [mapCalls_snoc] at hsplit
    rcases List.eq_nil_or_concat after with rfl | ⟨after, e, rfl⟩
    · -- the last call: it can issue only the next handle
      obtain ⟨rfl, hc⟩ := List.append_inj' hsplit rfl
      cases hc
      intro hissues
      rw [issued_iff] at hissued
      cases o with
      | getMlogger malloc =>
        cases malloc with
        | none => exact hissues
        | some a =>
          have hnext : (mapOf ops).next = h := hissues
          omega
      | _ => exact hissues
    · rw [List.concat_eq_append, ← List.cons_append, ← List.append_assoc] at hsplit
      exact ih before c after h (List.append_inj' hsplit rfl).1 hissued

/-- **The bookkeeping of the registry.** From program start, whatever the calls, as long as they
create fewer than 2^31 loggers: every call ends, so the assertion in `shutdown_all_mloggers`
never fails; in every state on the way the counter is the length of the list and the handles
increase below the next one; the counter is never taken below zero; and a handle that has been
shut down is not issued again. -/
theorem registry_bookkeeping (fuel : Nat) (ops : List Op) (hfuel : ops.length < fuel)
    (hfew : creations ops < 2 ^ 31) (hmalloc : ∀ p ∈ visits (step fuel) .start ops, Fresh p.1 p.2) :
    (∃ g rs, runOps (step fuel) .start ops = .ok (g, rs) ∧
      ∀ before c after h, ops.zip (rs.map Ret.value) = before ++ c :: after → ShutDown h before →
        ¬ Issues h c) ∧
    (∀ g ∈ reached (step fuel) .start ops, Kept g) ∧
    ∀ p ∈ visits (step fuel) .start ops, CountsDown fuel p.1 p.2 := by
  refine ⟨?_, ?_, ?_⟩
  · obtain ⟨g, rs, nodes, hrun, _, _, hvalues⟩ := run_map hfuel hfew hmalloc
    refine ⟨g, rs, hrun, fun before c after h hsplit hshut => ?_⟩
    rw [hvalues] at hsplit
    exact mapCalls_issues_once ops before c after h hsplit hshut.issued
  · intro g hg
    obtain ⟨_, nodes, ⟨hr, _, _⟩⟩ := forall_reached (fun os g => ∃ nodes, Room fuel os g nodes) Fresh
      (fun o os g g' r hroom hfresh hs => by
        obtain ⟨nodes, hroom⟩ := hroom
        obtain ⟨_, _, hs', hroom', _⟩ := hroom.step hfresh
        rw [hs] at hs'
        cases hs'
        exact ⟨_, hroom'⟩)
      ops .start ⟨[], .start hfuel hfew⟩ hmalloc g hg
    exact ⟨nodes, hr.list, hr.count, hr.sorted, hr.range⟩
  · refine forall_visits (fun os g => ∃ nodes, Room fuel os g nodes) Fresh (CountsDown fuel) ?_
      ops .start ⟨[], .start hfuel hfew⟩ hmalloc
    intro o os g hroom hfresh
    obtain ⟨nodes, hroom⟩ := hroom
    obtain ⟨g', r, hs, hroom', _⟩ := hroom.step hfresh
    have hrounds := hroom.rounds
    refine ⟨hroom.registered.countsDown (by omega) o, fun g'' r' hs' => ?_⟩
    rw [hs] at hs'
    cases hs'
    exact ⟨_, hroom'⟩

/-- Two loggers, one shut down, then all of them, then a third. -/
theorem registry_bookkeeping_three :
    ∃ states, reached (step 8) .start [.getMlogger (some 4) .stdout .info .none,
        .getMlogger (some 2) .stderr .debug .utc, .shutdownMlogger 0, .shutdownAllMloggers,
        .getMlogger (some 2) .stdout .info .none] = states ∧ states.length = 6 ∧
      ∀ g ∈ states, Kept g :=
  ⟨_, rfl, by decide +kernel, (registry_bookkeeping 8
    [.getMlogger (some 4) .stdout .info .none, .getMlogger (some 2) .stderr .debug .utc,
      .shutdownMlogger 0, .shutdownAllMloggers, .getMlogger (some 2) .stdout .info .none]
    (by decide) (by decide) (by decide +kernel)).2.1⟩

end Mikelibc.Log
