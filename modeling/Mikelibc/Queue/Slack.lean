import Mathlib.Data.List.MinMax
import Mikelibc.Queue.Sequential

/-! # How much memory the queue holds

Two counters are coupled without the code saying so: every dequeue moves `front`
up and `gc_run` down, and what sets `gc_run` back also sets `front` back, so the
slack in front of the window never reaches `GC_COUNT`. The array is doubled only
when slack and items fill it, which bounds it by the items alone. -/
namespace Mikelibc.Queue
open CSem

variable {α : Type} {malloc : Nat → Bool} {q q' : Mqueue α} {l : List (VoidPtr α)}

/-- The slack in front of the window is at most what the countdown has counted. -/
structure Slack (q : Mqueue α) : Prop where
  pos : 1 ≤ q.gcRun.toNat
  coupled : q.front.toNat + q.gcRun.toNat ≤ 100

/-- The array a queue may hold that began with `initial` slots and has had `items` items. -/
def room (initial items : Nat) : Nat := max initial (2 * (items + 98))

def largestSize (malloc : Nat → Bool) (q : Mqueue α) (ops : List (Op α)) : Nat :=
  ((reached (step malloc) q ops).map fun p => (mqueueSizeInt p).toNat).foldr max 0

/-! ## What the operations do to the counters -/

theorem grow_counters (h : grow malloc q = .ok q') : q'.front = q.front ∧ q'.gcRun = q.gcRun ∧
    (q'.allocSize = q.allocSize ∨ q.rear = q.allocSize ∧ q'.allocSize = q.allocSize * 2) := by
  unfold grow at h
  split at h
  · next hfull =>
    obtain ⟨_, _, h⟩ := Outcome.bind_eq_ok.mp h
    cases h
    exact ⟨rfl, rfl, .inr ⟨hfull, rfl⟩⟩
  · cases h
    exact ⟨rfl, rfl, .inl rfl⟩

/-- An enqueue doubles the array when the window has reached its end, and leaves the rest. -/
theorem enqueueLocked_counters {x : VoidPtr α} {n : UInt64}
    (h : enqueueLocked malloc q x = .ok (q', n)) : q'.front = q.front ∧ q'.gcRun = q.gcRun ∧
    (q'.allocSize = q.allocSize ∨ q.rear + 1 = q.allocSize ∧ q'.allocSize = q.allocSize * 2) := by
  obtain ⟨g, hg, h⟩ := Outcome.bind_eq_ok.mp h
  obtain ⟨data, _, h⟩ := Outcome.bind_eq_ok.mp h
  cases h
  exact grow_counters hg

theorem mqueueVacuum_counters (h : mqueueVacuum q = .ok q') :
    q'.front = 0 ∧ q'.gcRun = q.gcRun ∧ q'.allocSize = q.allocSize := by
  unfold mqueueVacuum at h
  split at h
  · next h0 => cases h; exact ⟨h0, rfl, rfl⟩
  · obtain ⟨data, _, h⟩ := Outcome.bind_eq_ok.mp h
    cases h
    exact ⟨rfl, rfl, rfl⟩

/-- A dequeue counts down and moves the window up, or sets both counters back. -/
theorem dequeueLocked_counters {x : VoidPtr α} (h : dequeueLocked q = .ok (q', x)) :
    q'.allocSize = q.allocSize ∧
    (q'.front = 0 ∧ q'.gcRun = gcCount ∨
      q.gcRun - 1 ≠ 0 ∧ q'.front = q.front + 1 ∧ q'.gcRun = q.gcRun - 1) := by
  obtain ⟨_, _, h⟩ := Outcome.bind_eq_ok.mp h
  obtain ⟨p, hp, h⟩ := Outcome.bind_eq_ok.mp h
  cases h
  unfold housekeeping at hp
  split at hp
  · obtain ⟨v, hv, hp⟩ := Outcome.bind_eq_ok.mp hp
    cases hp
    obtain ⟨hfront, _, halloc⟩ := mqueueVacuum_counters hv
    exact ⟨halloc, .inl ⟨hfront, rfl⟩⟩
  · next hgc => cases hp; exact ⟨rfl, .inr ⟨hgc, rfl, rfl⟩⟩

/-! ## The invariant -/

theorem Slack.countdown (h : Slack q) (hrun : q.gcRun - 1 ≠ 0) (hfront : q'.front = q.front + 1)
    (hgc : q'.gcRun = q.gcRun - 1) : Slack q' := by
  obtain ⟨hpos, hcoupled⟩ := h
  have hup : (q.front + 1).toNat = q.front.toNat + 1 := toNat_add_one (by omega)
  have hdown : (q.gcRun - 1).toNat = q.gcRun.toNat - 1 :=
    toNat_sub_of_eq (show q.gcRun.toNat = 1 + (q.gcRun.toNat - 1) by omega)
  have hne : (q.gcRun - 1).toNat ≠ 0 := fun h0 => hrun (UInt64.toNat_inj.mp h0)
  constructor
  · rw [hgc]; omega
  · rw [hfront, hgc, hup, hdown]; omega

/-- One call keeps the two counters coupled. -/
theorem step_slack {o : Op α} {r : Ret α} (h : Slack q) (hs : step malloc q o = .ok (q', r)) :
    Slack q' := by
  cases o with
  | enqueue x =>
    obtain ⟨⟨p, n⟩, he, hs⟩ := Outcome.bind_eq_ok.mp hs
    cases hs
    unfold mqueueEnqueue at he
    split at he
    · cases he; exact h
    · obtain ⟨hfront, hgc, _⟩ := enqueueLocked_counters he
      exact ⟨hgc ▸ h.pos, hfront ▸ hgc ▸ h.coupled⟩
  | dequeue =>
    obtain ⟨⟨p, x⟩, hd, hs⟩ := Outcome.bind_eq_ok.mp hs
    cases hs
    unfold mqueueDequeue at hd
    split at hd
    · cases hd; exact h
    · obtain ⟨_, ⟨hfront, hgc⟩ | ⟨hrun, hfront, hgc⟩⟩ := dequeueLocked_counters hd
      · exact ⟨by rw [hgc]; decide, by rw [hfront, hgc]; decide⟩
      · exact h.countdown hrun hfront hgc
  | size => cases hs; exact h
  | vacuum =>
    obtain ⟨v, hv, hs⟩ := Outcome.bind_eq_ok.mp hs
    cases hs
    obtain ⟨hfront, hgc, _⟩ := mqueueVacuum_counters hv
    have hcoupled := h.coupled
    refine ⟨hgc ▸ h.pos, ?_⟩
    rw [hfront, hgc, show (0 : UInt64).toNat = 0 from rfl]
    omega

/-- One call keeps the array within its room, if that is for as many items as it leaves. -/
theorem step_room {o : Op α} {r : Ret α} {initial items : Nat} (hrep : Represents q l)
    (hslack : Slack q) (hb : q.allocSize.toNat * 16 < 2 ^ 64)
    (hroom : q.allocSize.toNat ≤ room initial items) (hs : step malloc q o = .ok (q', r))
    (hleft : (mqueueSizeInt q').toNat ≤ items) (hm : ∀ n, malloc n = true) :
    q'.allocSize.toNat ≤ room initial items := by
  cases o with
  | enqueue x =>
    obtain ⟨⟨p, n⟩, he, hs⟩ := Outcome.bind_eq_ok.mp hs
    cases hs
    unfold mqueueEnqueue at he
    split at he
    · cases he; exact hroom
    · obtain ⟨_, _, hsame | ⟨hfull, hdouble⟩⟩ := enqueueLocked_counters he
      · rw [hsame]; exact hroom
      · -- slack and items fill the array, and there is one item more after the call
        obtain ⟨p', n', he', hrep', _, _⟩ := enqueueLocked_spec hm hrep (fun _ => hb) x
        rw [he] at he'
        cases he'
        have hsize := hrep'.size
        have hrear := hrep.rear
        have hcoupled := hslack.coupled
        have hpos := hslack.pos
        rw [hfull] at hrear
        rw [List.length_append, List.length_singleton] at hsize
        rw [hdouble, toNat_double (by omega)]
        unfold room
        omega
  | dequeue =>
    obtain ⟨⟨p, x⟩, hd, hs⟩ := Outcome.bind_eq_ok.mp hs
    cases hs
    unfold mqueueDequeue at hd
    split at hd
    · cases hd; exact hroom
    · rw [(dequeueLocked_counters hd).1]; exact hroom
  | size => cases hs; exact hroom
  | vacuum =>
    obtain ⟨v, hv, hs⟩ := Outcome.bind_eq_ok.mp hs
    cases hs
    rw [(mqueueVacuum_counters hv).2.2]
    exact hroom

theorem Fifo.length_step_le {bound : Nat} (hbound : 0 < bound) (hl : l.length ≤ bound) (o : Op α) :
    (Fifo.step bound l o).1.length ≤ bound := by
  cases o with
  | enqueue x =>
    simp only [Fifo.step]
    split
    · exact hl
    · next hfree =>
      simp only [List.length_append, List.length_singleton]
      omega
  | dequeue => cases l with
    | nil => exact Nat.zero_le _
    | cons x l => exact Nat.le_trans (Nat.le_succ _) hl
  | size | vacuum => exact hl

/-! ## Runs -/

section Runs
variable {initialSize maxSize : UInt64} {ops : List (Op α)}

theorem initialQueue_slack : Slack (initialQueue initialSize maxSize : Mqueue α) :=
  ⟨by simp only [initialQueue]; decide, by simp only [initialQueue]; decide⟩

theorem size_le_max (hm : ∀ n, malloc n = true) (hmax : 0 < maxSize.toNat)
    (hstays : ∀ q ∈ reached (step malloc) (initialQueue initialSize maxSize) ops,
      q.allocSize.toNat * 16 < 2 ^ 64) :
    ∀ q ∈ reached (step malloc) (initialQueue initialSize maxSize) ops,
      (mqueueSizeInt q).toNat ≤ maxSize.toNat := by
  have hinit := initialQueue_represents (hstays _ (mem_reached_self _ _))
  intro p hp
  obtain ⟨_, l, hrep, _, hl⟩ := forall_reached
    (fun _ q => ∃ l, Represents q l ∧ q.maxSize = maxSize ∧ l.length ≤ maxSize.toNat)
    (fun q _ => q.allocSize.toNat * 16 < 2 ^ 64)
    (fun o _ q q' r hinv hb hs => by
      obtain ⟨l, hrep, hqm, hl⟩ := hinv
      obtain ⟨_, _, hs', hrep', hqm', _⟩ := step_spec hm hrep hb o
      rw [hs] at hs'
      cases hs'
      rw [hqm] at hrep'
      exact ⟨_, hrep', hqm'.trans hqm, Fifo.length_step_le hmax hl o⟩)
    ops _ ⟨[], hinit, rfl, Nat.zero_le _⟩ (fun p hp => hstays _ (visits_mem_reached hp)) p hp
  rw [hrep.size]
  exact hl

/-- The run lemma: an array with room for every size the queue has on the way. -/
theorem run_room (hm : ∀ n, malloc n = true) {items : Nat}
    (hstays : ∀ q ∈ reached (step malloc) (initialQueue initialSize maxSize) ops,
      q.allocSize.toNat * 16 < 2 ^ 64)
    (hitems : ∀ q ∈ reached (step malloc) (initialQueue initialSize maxSize) ops,
      (mqueueSizeInt q).toNat ≤ items) :
    ∃ q rs l, runOps (step malloc) (initialQueue initialSize maxSize) ops = .ok (q, rs) ∧
      Represents q l ∧ Slack q ∧ q.allocSize.toNat ≤ room (max initialSize.toNat 1) items := by
  have hinit := initialQueue_represents (hstays _ (mem_reached_self _ _))
  have halloc : (initialQueue initialSize maxSize : Mqueue α).allocSize.toNat ≤
      room (max initialSize.toNat 1) items := by
    refine Nat.le_trans ?_ (Nat.le_max_left _ _)
    simp only [initialQueue]
    split
    · exact Nat.le_max_right _ _
    · exact Nat.le_max_left _ _
  obtain ⟨q, rs, hrun, ⟨hrep, hslack, hroom, _⟩, _⟩ := runOps_simulates
    (Fifo.step maxSize.toNat)
    (fun os q l => Represents q l ∧ Slack q ∧
      q.allocSize.toNat ≤ room (max initialSize.toNat 1) items ∧ q.maxSize = maxSize ∧
      ∀ p ∈ reached (step malloc) q os, (mqueueSizeInt p).toNat ≤ items)
    Answers (fun q _ => q.allocSize.toNat * 16 < 2 ^ 64)
    (fun o os q l hinv hb => by
      obtain ⟨hrep, hslack, hroom, hqm, hleft⟩ := hinv
      obtain ⟨q', r, hs, hrep', hqm', hans⟩ := step_spec hm hrep hb o
      rw [hqm] at hrep' hans
      rw [reached_cons_ok hs, List.forall_mem_cons] at hleft
      exact ⟨q', r, hs, ⟨hrep', step_slack hslack hs,
        step_room hrep hslack hb hroom hs (hleft.2 q' (mem_reached_self q' os)) hm,
        hqm'.trans hqm, hleft.2⟩, hans⟩)
    ops _ [] ⟨hinit, initialQueue_slack, halloc, rfl, hitems⟩
    fun p hp => hstays _ (visits_mem_reached hp)
  exact ⟨q, rs, _, hrun, hrep, hslack, hroom⟩

/-- **The memory a queue holds stays bounded.** After any calls from `mqueue_init`, the countdown
is in 1..100 and with the slack at most 100, the window lies in the array, and the array has no
more slots than it began with or twice the maximum and 98 (without a maximum: the largest size
so far and 98). -/
theorem mqueue_memory_bounded (hm : ∀ n, malloc n = true) (initialSize maxSize : UInt64)
    (ops : List (Op α))
    (hstays : ∀ q ∈ reached (step malloc) (initialQueue initialSize maxSize) ops,
      q.allocSize.toNat * 16 < 2 ^ 64) :
    mqueueInit malloc initialSize maxSize = .ok (initialQueue initialSize maxSize : Mqueue α) ∧
    ∃ q rs, runOps (step malloc) (initialQueue initialSize maxSize) ops = .ok (q, rs) ∧
      1 ≤ q.gcRun.toNat ∧ q.gcRun.toNat ≤ 100 ∧ q.front.toNat + q.gcRun.toNat ≤ 100 ∧
      q.front.toNat ≤ (q.rear + 1).toNat ∧ (q.rear + 1).toNat ≤ q.allocSize.toNat ∧
      (0 < maxSize.toNat →
        q.allocSize.toNat ≤ max (max initialSize.toNat 1) (2 * (maxSize.toNat + 98))) ∧
      (maxSize.toNat = 0 → q.allocSize.toNat ≤ max (max initialSize.toNat 1)
        (2 * (largestSize malloc (initialQueue initialSize maxSize) ops + 98))) := by
  refine ⟨mqueueInit_eq hm _ _, ?_⟩
  obtain ⟨q, rs, l, hrun, hrep, hslack, hroom⟩ := run_room hm hstays fun p hp =>
    List.le_max_of_le' 0 (List.mem_map_of_mem (f := fun p => (mqueueSizeInt p).toNat) hp) le_rfl
  have hpos := hslack.pos
  have hcoupled := hslack.coupled
  have hrear := hrep.rear
  have hin := hrep.room
  refine ⟨q, rs, hrun, hpos, by omega, hcoupled, by omega, by omega, fun hmax => ?_, fun _ => hroom⟩
  obtain ⟨p, ps, _, hrun', _, _, hroom'⟩ := run_room hm hstays (size_le_max hm hmax hstays)
  rw [hrun] at hrun'
  cases hrun'
  exact hroom'

/-- Three items, a dequeue and a vacuum: the array has grown to four slots. -/
theorem mqueue_memory_bounded_three :
    ∃ q rs, runOps (step fun _ => true) (initialQueue 1 3)
        [.enqueue (some 7), .enqueue (some 8), .enqueue (some 9), .dequeue, .vacuum] = .ok (q, rs) ∧
      q.allocSize.toNat ≤ 202 := by
  obtain ⟨_, q, rs, hrun, _, _, _, _, _, hbound, _⟩ := mqueue_memory_bounded
    (fun _ => rfl : ∀ n, (fun _ : Nat => true) n = true) 1 3
    [.enqueue (some 7), .enqueue (some 8), .enqueue (some 9), .dequeue, .vacuum] (by decide +kernel)
  exact ⟨q, rs, hrun, hbound (by decide)⟩

end Runs

end Mikelibc.Queue
