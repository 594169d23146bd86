import Mikelibc.Queue.Sequential

/-! # The size of the array

`mqueue_init` and a doubling compute the bytes they request in 64 bits, `alloc_size`
counts slots. As long as neither product wraps around, the slot at `rear` lies in
the bytes that were requested, whatever `malloc` refuses; a doubling that wraps
around is followed by a store outside. -/
namespace Mikelibc.Queue
open CSem

variable {α : Type} {malloc : Nat → Bool} {q q' : Mqueue α} {l : List (VoidPtr α)}

/-- The bytes last requested reach to the slot at `rear`. -/
def InBlock (q : Mqueue α) : Prop := 8 * (q.rear + 1).toNat ≤ q.data.bytes

/-- The queue has the slot at `rear` in its block in every state of these calls, and no call
writes outside it. -/
def StoresInside (malloc : Nat → Bool) (q : Mqueue α) (ops : List (Op α)) : Prop :=
  (∀ p ∈ reached (step malloc) q ops, InBlock p) ∧
    ∀ p ∈ visits (step malloc) q ops, step malloc p.1 p.2 ≠ .fault

def Doubles (q : Mqueue α) : Op α → Prop
  | .enqueue _ => ¬ AtMax q ∧ q.rear + 1 = q.allocSize
  | .dequeue | .size | .vacuum => False

instance Doubles.decide (q : Mqueue α) (o : Op α) : Decidable (Doubles q o) :=
  match o with
  | .enqueue _ => inferInstanceAs (Decidable (_ ∧ _))
  | .dequeue | .size | .vacuum => inferInstanceAs (Decidable False)

/-- The bytes a doubling requests do not wrap around, or the request is refused. -/
def DoublesSafely (malloc : Nat → Bool) (q : Mqueue α) (o : Op α) : Prop :=
  Doubles q o → q.allocSize.toNat < 2 ^ 60 ∨ malloc (q.allocSize * ptrSize * 2).toNat = false

instance (q : Mqueue α) (o : Op α) : Decidable (DoublesSafely malloc q o) :=
  inferInstanceAs (Decidable (_ → _))

theorem Represents.inBlock (h : Represents q l) : InBlock q := by
  have hroom := h.room
  rw [InBlock, h.rear, h.block]
  omega

/-! ## One call -/

/-- A doubling that is refused ends in the assertion. -/
theorem grow_refused (hfull : q.rear = q.allocSize)
    (hno : malloc (q.allocSize * ptrSize * 2).toNat = false) : grow malloc q = .abort := by
  have hassert : ¬ malloc (q.allocSize * ptrSize * 2).toNat = true := by
    rw [hno]; exact Bool.false_ne_true
  simp only [grow, if_pos hfull, Outcome.assert_of_not hassert, Outcome.abort_bind]

/-- One that is granted does not depend on what else `malloc` grants. -/
theorem grow_granted (h : q.rear = q.allocSize → malloc (q.allocSize * ptrSize * 2).toNat = true) :
    grow malloc q = grow (fun _ => true) q := by
  by_cases hfull : q.rear = q.allocSize
  · rw [grow_full (h hfull) hfull, grow_full rfl hfull]
  · rw [grow_room hfull, grow_room hfull]

/-- One that wraps around requests less than there was, and the store is outside. -/
theorem enqueueLocked_wraps (h : Represents q l) (hfull : q.rear + 1 = q.allocSize)
    (hbig : 2 ^ 60 ≤ q.allocSize.toNat) (hgrant : malloc (q.allocSize * ptrSize * 2).toNat = true)
    (x : VoidPtr α) : enqueueLocked malloc q x = .fault := by
  have hfits := h.fits
  have hbytes : (q.allocSize * ptrSize * 2).toNat = 16 * (q.allocSize.toNat - 2 ^ 60) := by
    rw [UInt64.toNat_mul, toNat_mul_ptrSize (by omega), show (2 : UInt64).toNat = 2 from rfl]
    omega
  have hout : ¬ (q.data.realloc (q.allocSize * ptrSize * 2).toNat).Fits (q.rear + 1).toNat := by
    simp only [Block.Fits, Block.realloc, hbytes, hfull]
    omega
  rw [enqueueLocked, grow_full (q := { q with rear := q.rear + 1 }) hgrant hfull, Outcome.ok_bind]
  simp only [Block.store, Outcome.require_of_not hout, Outcome.fault_bind]

/-- An enqueue past the guard that does not double the array unsafely. -/
theorem enqueueLocked_of_safe (h : Represents q l) (hsafe : q.rear + 1 = q.allocSize →
      q.allocSize.toNat < 2 ^ 60 ∨ malloc (q.allocSize * ptrSize * 2).toNat = false)
    (x : VoidPtr α) :
    enqueueLocked malloc q x = .abort ∨
      ∃ q' n, enqueueLocked malloc q x = .ok (q', n) ∧ Represents q' (l ++ [x]) := by
  by_cases hrefused : q.rear + 1 = q.allocSize ∧ malloc (q.allocSize * ptrSize * 2).toNat = false
  · left
    rw [enqueueLocked, grow_refused (q := { q with rear := q.rear + 1 }) hrefused.1 hrefused.2]
    rfl
  · right
    have hsame : enqueueLocked malloc q x = enqueueLocked (fun _ => true) q x := by
      rw [enqueueLocked, enqueueLocked, grow_granted (q := { q with rear := q.rear + 1 })]
      exact fun hfull => by simpa using fun hno => hrefused ⟨hfull, hno⟩
    obtain ⟨q', n, hq, hrep, _⟩ := enqueueLocked_spec (fun _ => rfl) h (fun hfull => by
      have := (hsafe hfull).resolve_right fun hno => hrefused ⟨hfull, hno⟩
      omega) x
    exact ⟨q', n, hsame.trans hq, hrep⟩

/-- A call that does not double the array unsafely ends in the assertion or goes through, and a
queue is left. -/
theorem step_of_safe (h : Represents q l) {o : Op α} (hsafe : DoublesSafely malloc q o) :
    step malloc q o = .abort ∨ ∃ q' r l', step malloc q o = .ok (q', r) ∧ Represents q' l' := by
  cases o with
  | enqueue x =>
    by_cases hmax : AtMax q
    · exact .inr ⟨q, .count (-1), l, by simp [step, mqueueEnqueue_full hmax], h⟩
    · rcases enqueueLocked_of_safe h (fun hfull => hsafe ⟨hmax, hfull⟩) x with
        habort | ⟨q', n, hq, hrep⟩
      · exact .inl (by simp [step, mqueueEnqueue, hmax, habort])
      · exact .inr ⟨q', .count n, l ++ [x], by simp [step, mqueueEnqueue, hmax, hq], hrep⟩
  | dequeue =>
    cases l with
    | nil =>
      exact .inr ⟨q, .item none, [],
        by simp [step, mqueueDequeue_empty (h.isEmpty_iff.mpr rfl)], h⟩
    | cons x l =>
      have hne : ¬ IsEmpty q := fun he => by simpa using h.isEmpty_iff.mp he
      obtain ⟨q', hq, hrep, _⟩ := dequeueLocked_spec h
      exact .inr ⟨q', .item x, l, by simp [step, mqueueDequeue, hne, hq], hrep⟩
  | size => exact .inr ⟨q, .count (mqueueSize q), l, rfl, h⟩
  | vacuum =>
    obtain ⟨q', hq, hrep, _⟩ := mqueueVacuum_spec h
    exact .inr ⟨q', .done, l, by simp [step, hq], hrep⟩

/-- One that does writes outside the block. -/
theorem step_of_not_safe (h : Represents q l) {o : Op α} (hnot : ¬ DoublesSafely malloc q o) :
    step malloc q o = .fault := by
  obtain ⟨hdoubles, hno⟩ := Classical.not_imp.mp hnot
  obtain ⟨hbig, hgrant⟩ := not_or.mp hno
  cases o with
  | enqueue x =>
    obtain ⟨hmax, hfull⟩ := hdoubles
    simp [step, mqueueEnqueue, hmax,
      enqueueLocked_wraps h hfull (by omega) (by simpa using hgrant) x]
  | dequeue | size | vacuum => exact absurd hdoubles id

/-! ## Runs -/

/-- The run lemma, from any queue. -/
theorem storesInside_iff (ops : List (Op α)) : ∀ (q : Mqueue α) (l : List (VoidPtr α)),
    Represents q l → (StoresInside malloc q ops ↔
      ∀ p ∈ visits (step malloc) q ops, DoublesSafely malloc p.1 p.2) := by
  induction ops with
  | nil =>
    intro q l h
    exact iff_of_true ⟨fun p hp => by rw [List.mem_singleton.mp hp]; exact h.inBlock,
      fun p hp => by cases hp⟩ fun p hp => by cases hp
  | cons o ops ih =>
    intro q l h
    by_cases hsafe : DoublesSafely malloc q o
    · rcases step_of_safe h hsafe with habort | ⟨q', r, l', hs, hrep⟩
      · simp [StoresInside, reached, visits, habort, h.inBlock, hsafe]
      · have hrest := ih q' l' hrep
        simp only [StoresInside, reached_cons_ok hs, visits_cons_ok hs,
          List.forall_mem_cons] at hrest ⊢
        constructor
        · intro hall
          exact ⟨hsafe, hrest.mp ⟨hall.1.2, hall.2.2⟩⟩
        · intro hall
          obtain ⟨hin, hok⟩ := hrest.mpr hall.2
          exact ⟨⟨h.inBlock, hin⟩, by rw [hs]; simp, hok⟩
    · have hfault := step_of_not_safe h hsafe
      refine iff_of_false (fun hin => ?_) fun hall => hsafe (hall (q, o) (by simp [visits]))
      exact hin.2 (q, o) (by simp [visits]) hfault

/-- **When the queue stores inside its block.** For an `initial_size` that is below 2^61 or refused
the memory, and any calls after `mqueue_init`, the slot at `rear` always lies in the bytes last
requested, exactly when every call that doubles the array finds it with fewer than 2^60 slots or is
refused the memory. -/
theorem mqueue_storesInside_iff (initialSize maxSize : UInt64) (ops : List (Op α))
    (hinit : initialSize.toNat < 2 ^ 61 ∨
      mqueueInit malloc initialSize maxSize = (.abort : Outcome (Mqueue α))) :
    (∀ q, mqueueInit malloc initialSize maxSize = .ok q → StoresInside malloc q ops) ↔
      ∀ q : Mqueue α, mqueueInit malloc initialSize maxSize = .ok q →
        ∀ p ∈ visits (step malloc) q ops, DoublesSafely malloc p.1 p.2 := by
  refine forall₂_congr fun q hq => storesInside_iff ops q [] ?_
  have hsmall := hinit.resolve_right fun hrefused => by cases hrefused.symm.trans hq
  obtain ⟨_, _, hq⟩ := Outcome.bind_eq_ok.mp hq
  have hqueue : q = initialQueue initialSize maxSize := (Outcome.ok.inj hq).symm
  rw [hqueue]
  refine initialQueue_represents_of ?_
  simp only [initialQueue]
  split
  · decide
  · omega

/-- Three items in a queue that begins with one slot. -/
theorem mqueue_storesInside_three :
    StoresInside (fun _ => true) (initialQueue 1 0)
      [.enqueue (some 7), .enqueue (some 8), .enqueue (some 9)] :=
  (mqueue_storesInside_iff 1 0 [.enqueue (some 7), .enqueue (some 8), .enqueue (some 9)]
    (.inl (by simp))).mpr (fun q hq => by
      cases hq
      decide +kernel) _ rfl

/-- For an `initial_size` of 2^61 the block has no bytes at all, and the first item is stored
outside it. -/
theorem mqueue_stores_outside :
    ¬ ∀ (malloc : Nat → Bool) (initialSize maxSize : UInt64) (ops : List (Op Nat)) (q : Mqueue Nat),
      mqueueInit malloc initialSize maxSize = .ok q → StoresInside malloc q ops := by
  intro h
  have hin := h (fun _ => true) 0x2000000000000000 0 [.enqueue none] _ rfl
  exact hin.2 _ List.mem_cons_self rfl

end Mikelibc.Queue
