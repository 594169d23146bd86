import Mikelibc.Lib.Control

/-! # Output in pieces

A step of a thread may print several pieces. In a description with large steps they come out at
once; in the program they come out one by one, and other threads run in between. Where only the
holder of a lock prints, and keeps the lock until it has printed, this makes no difference:
what comes out in pieces are the records of a run with large steps, one after the other, but for what
is left of the last one (`Guarded.records_whole`). Pieces that are printed without the lock are left out
of account (`keep`). -/
namespace Pieces
open CSem

variable {τ σ act ε : Type}

/-- Threads that print: the thread that makes a step, and where the step leads and the record it
prints. -/
structure System (τ σ act ε : Type) where
  who : act → τ
  step : σ → act → Outcome (σ × List ε)

/-- The state, what every thread has still to print, and what has been printed. -/
structure Printing (τ σ ε : Type) where
  state : σ
  pending : τ → List ε
  printed : List ε

def Printing.start (s : σ) : Printing τ σ ε := ⟨s, fun _ => [], []⟩

/-- One step in pieces: a thread prints the next piece of its record, or makes its next step. -/
def System.piece [DecidableEq τ] (S : System τ σ act ε) (p : Printing τ σ ε) (a : act) :
    Outcome (Printing τ σ ε × Unit) :=
  match p.pending (S.who a) with
  | e :: rest => return ({ p with
      pending := Function.update p.pending (S.who a) rest
      printed := p.printed ++ [e] }, ())
  | [] => do
    let (s, record) ← S.step p.state a
    return ({ p with state := s, pending := Function.update p.pending (S.who a) record }, ())

/-- Only the holder of the lock prints, and it keeps the lock when it does; nobody else takes the
lock away. -/
structure Guarded (S : System τ σ act ε) (I : σ → Prop) (holder : σ → Option τ) (keep : ε → Bool) :
    Prop where
  keeps : ∀ {s a s' record}, I s → S.step s a = .ok (s', record) → I s'
  prints : ∀ {s a s' record}, I s → S.step s a = .ok (s', record) → record.filter keep ≠ [] →
    holder s = some (S.who a) ∧ holder s' = some (S.who a)
  holds : ∀ {s a s' record t}, I s → S.step s a = .ok (s', record) → holder s = some t →
    t ≠ S.who a → holder s' = some t

/-- What the holder of the lock has still to print. -/
def Printing.left (holder : σ → Option τ) (keep : ε → Bool) (p : Printing τ σ ε) : List ε :=
  match holder p.state with
  | some t => (p.pending t).filter keep
  | none => []

/-- All of the records have been printed, but for what is left of the last that has pieces. -/
def Printed (keep : ε → Bool) (records : List (List ε)) (printed left : List ε) : Prop :=
  (left = [] ∧ printed = records.flatten.filter keep) ∨
  ∃ done record rest front, records = done ++ record :: rest ∧ rest.flatten.filter keep = [] ∧
    record.filter keep = front ++ left ∧ printed = done.flatten.filter keep ++ front

variable {S : System τ σ act ε} {I : σ → Prop} {holder : σ → Option τ} {keep : ε → Bool}
  {records : List (List ε)} {printed left : List ε}

/-- Either way, what has been printed and what is left are the records. -/
theorem Printed.flatten (h : Printed keep records printed left) :
    printed ++ left = records.flatten.filter keep := by
  obtain ⟨rfl, h⟩ | ⟨done, record, rest, front, rfl, hrest, hrecord, rfl⟩ := h
  · rw [List.append_nil, h]
  · simp only [List.flatten_append, List.flatten_cons, List.filter_append, hrest, hrecord,
      List.append_nil, List.append_assoc]

theorem Printed.silent (h : Printed keep records printed left) {record : List ε}
    (hnone : record.filter keep = []) : Printed keep (records ++ [record]) printed left := by
  obtain ⟨rfl, h⟩ | ⟨done, r, rest, front, rfl, hrest, hrecord, rfl⟩ := h
  · exact .inl ⟨rfl, by simp [h, hnone]⟩
  · exact .inr ⟨done, r, rest ++ [record], front, by simp, by simp [hrest, hnone], hrecord, rfl⟩

theorem Printed.begin (h : Printed keep records printed []) (record : List ε) :
    Printed keep (records ++ [record]) printed (record.filter keep) := by
  have hall := h.flatten
  rw [List.append_nil] at hall
  exact .inr ⟨records, record, [], [], rfl, rfl, rfl, by rw [hall, List.append_nil]⟩

theorem Printed.next {e : ε} (h : Printed keep records printed (e :: left)) :
    Printed keep records (printed ++ [e]) left := by
  obtain ⟨h, _⟩ | ⟨done, record, rest, front, rfl, hrest, hrecord, rfl⟩ := h
  · cases h
  · exact .inr ⟨done, record, rest, front ++ [e], rfl, hrest, by simp [hrecord], by simp⟩

/-- Records with nothing in them do not matter. -/
theorem Printed.compact (h : Printed keep records printed left) :
    Printed keep (records.filter fun record => !record.isEmpty) printed left := by
  obtain ⟨rfl, h⟩ | ⟨done, record, rest, front, rfl, hrest, hrecord, rfl⟩ := h
  · exact .inl ⟨rfl, by rw [List.flatten_filter_not_isEmpty, h]⟩
  · cases record with
    | nil =>
      obtain ⟨rfl, rfl⟩ := List.append_eq_nil_iff.mp hrecord.symm
      refine .inl ⟨rfl, ?_⟩
      rw [List.flatten_filter_not_isEmpty, List.flatten_append, List.filter_append]
      simp [hrest]
    | cons e record =>
      refine .inr ⟨done.filter fun record => !record.isEmpty, e :: record,
        rest.filter fun record => !record.isEmpty, front, by simp, ?_, hrecord, ?_⟩
      · rw [List.flatten_filter_not_isEmpty, hrest]
      · rw [List.flatten_filter_not_isEmpty]

section Runs
variable [DecidableEq τ]

/-- What holds of a run in pieces: nobody but the holder of the lock is about to print, and a run
with large steps leads to the same state and has the records. -/
structure Follows (S : System τ σ act ε) (I : σ → Prop) (holder : σ → Option τ) (keep : ε → Bool)
    (start : σ) (acts : List act) (p : Printing τ σ ε) : Prop where
  inv : I p.state
  alone : ∀ t, (p.pending t).filter keep ≠ [] → holder p.state = some t
  run : ∃ large records, large.Sublist acts ∧ runOps S.step start large = .ok (p.state, records) ∧
    Printed keep records (p.printed.filter keep) (p.left holder keep)

variable {start : σ} {acts : List act} {p p' : Printing τ σ ε} {a : act}

theorem runOps_snoc {ret : Type} {step : σ → act → Outcome (σ × ret)} {s t u : σ} {r : ret} :
    ∀ {os : List act} {rs : List ret} {o : act}, runOps step s os = .ok (t, rs) →
      step t o = .ok (u, r) → runOps step s (os ++ [o]) = .ok (u, rs ++ [r]) := by
  intro os
  induction os generalizing s with
  | nil => intro rs o h ho; cases h; simp [runOps, ho]
  | cons o' os ih =>
    intro rs o h ho
    obtain ⟨⟨s', r'⟩, hs, h⟩ := Outcome.bind_eq_ok.mp h
    obtain ⟨⟨t', rs'⟩, ht, h⟩ := Outcome.bind_eq_ok.mp h
    cases h
    simp [runOps, hs, ih ht ho]

/-- The holder of the lock, or a thread that prints nothing that is kept, prints its next piece. -/
theorem Follows.print (h : Follows S I holder keep start acts p) {e : ε} {rest : List ε}
    (hpending : p.pending (S.who a) = e :: rest) : Follows S I holder keep start (acts ++ [a]) { p with
      pending := Function.update p.pending (S.who a) rest
      printed := p.printed ++ [e] } := by
  obtain ⟨hinv, halone, large, records, hsub, hrun, hprinted⟩ := h
  have hfilter := congrArg (List.filter keep) hpending
  refine ⟨hinv, fun t ht => ?_, large, records, hsub.trans (List.sublist_append_left _ _), hrun, ?_⟩
  · by_cases hself : t = S.who a
    · subst hself
      refine halone _ fun hnone => ?_
      rw [hfilter, List.filter_cons] at hnone
      simp only [Function.update_self] at ht
      split at hnone
      · cases hnone
      · exact ht hnone
    · exact halone t (by simpa [Function.update_of_ne hself] using ht)
  · rw [List.filter_append]
    by_cases hkeep : keep e = true
    · have hholder : holder p.state = some (S.who a) := halone _ (by simp [hfilter, hkeep])
      have hleft : p.left holder keep = e :: rest.filter keep := by
        simp [Printing.left, hholder, hfilter, hkeep]
      rw [hleft] at hprinted
      simpa [Printing.left, hholder, hkeep] using hprinted.next
    · have hsame : Printing.left holder keep { p with
          pending := Function.update p.pending (S.who a) rest
          printed := p.printed ++ [e] } = p.left holder keep := by
        unfold Printing.left
        cases hholder : holder p.state with
        | none => rfl
        | some t =>
          by_cases hself : t = S.who a
          · simp [hself, hfilter, hkeep]
          · simp [Function.update_of_ne hself]
      rw [hsame]
      simpa [hkeep] using hprinted

/-- A thread with nothing to print makes its next step. -/
theorem Follows.large (hg : Guarded S I holder keep) (h : Follows S I holder keep start acts p)
    (hpending : p.pending (S.who a) = []) {s : σ} {record : List ε}
    (hstep : S.step p.state a = .ok (s, record)) : Follows S I holder keep start (acts ++ [a])
      { p with state := s, pending := Function.update p.pending (S.who a) record } := by
  obtain ⟨hinv, halone, large, records, hsub, hrun, hprinted⟩ := h
  refine ⟨hg.keeps hinv hstep, fun t ht => ?_, large ++ [a], records ++ [record],
    hsub.append (List.Sublist.refl _), runOps_snoc hrun hstep, ?_⟩
  · by_cases hself : t = S.who a
    · subst hself
      exact (hg.prints hinv hstep (by simpa using ht)).2
    · have hthere : holder p.state = some t :=
        halone t (by simpa [Function.update_of_ne hself] using ht)
      exact hg.holds hinv hstep hthere hself
  · by_cases hnone : record.filter keep = []
    · have hsame : Printing.left holder keep { p with
          state := s
          pending := Function.update p.pending (S.who a) record } = p.left holder keep := by
        -- who holds the lock now has nothing to print, or held it before
        unfold Printing.left
        cases hbefore : holder p.state with
        | none =>
          cases hafter : holder s with
          | none => rfl
          | some t =>
            by_cases hself : t = S.who a
            · simp [hself, hnone]
            · by_contra hsome
              have := halone t (by simpa [Function.update_of_ne hself] using hsome)
              rw [hbefore] at this
              cases this
        | some t =>
          by_cases hself : t = S.who a
          · subst hself
            simp only [hpending]
            cases hafter : holder s with
            | none => rfl
            | some u =>
              by_cases hu : u = S.who a
              · simp [hu, hnone]
              · by_contra hsome
                have := halone u (by simpa [Function.update_of_ne hu] using hsome)
                rw [hbefore] at this
                exact hu (Option.some.inj this).symm
          · rw [hg.holds hinv hstep hbefore hself]
            simp [Function.update_of_ne hself]
      rw [hsame]
      exact hprinted.silent hnone
    · obtain ⟨hbefore, hafter⟩ := hg.prints hinv hstep hnone
      have hleft : p.left holder keep = [] := by simp [Printing.left, hbefore, hpending]
      rw [hleft] at hprinted
      simpa [Printing.left, hafter] using hprinted.begin record

theorem Follows.step (hg : Guarded S I holder keep) (h : Follows S I holder keep start acts p)
    {u : Unit} (hstep : S.piece p a = .ok (p', u)) :
    Follows S I holder keep start (acts ++ [a]) p' := by
  unfold System.piece at hstep
  split at hstep
  · next e rest hpending =>
    cases hstep
    exact h.print hpending
  · next hpending =>
    obtain ⟨⟨s, record⟩, hs, hstep⟩ := Outcome.bind_eq_ok.mp hstep
    cases hstep
    exact h.large hg hpending hs

theorem Follows.run_append (hg : Guarded S I holder keep) :
    ∀ {more acts : List act} {p p' : Printing τ σ ε} {us : List Unit},
      Follows S I holder keep start acts p → runOps S.piece p more = .ok (p', us) →
      Follows S I holder keep start (acts ++ more) p' := by
  intro more
  induction more with
  | nil => intro acts p p' us h hrun; cases hrun; rwa [List.append_nil]
  | cons a more ih =>
    intro acts p p' us h hrun
    obtain ⟨⟨q, u⟩, hq, hrun⟩ := Outcome.bind_eq_ok.mp hrun
    obtain ⟨⟨q', us'⟩, hq', hrun⟩ := Outcome.bind_eq_ok.mp hrun
    cases hrun
    rw [List.append_cons]
    exact ih (h.step hg hq) hq'

/-- **Records come out whole.** A run in pieces leads to a state that some of its steps, made as
large ones, lead to; and what it has printed are the records of these, one after the other, but for
what the holder of the lock has still to print of the last. -/
theorem Guarded.records_whole (hg : Guarded S I holder keep) {s : σ} (h0 : I s) {us : List Unit}
    (hrun : runOps S.piece (Printing.start s) acts = .ok (p, us)) :
    ∃ large records, large.Sublist acts ∧ runOps S.step s large = .ok (p.state, records) ∧
      Printed keep records (p.printed.filter keep) (p.left holder keep) := by
  have hstart : Follows S I holder keep s [] (Printing.start s) := by
    refine ⟨h0, fun t ht => absurd rfl ht, [], [], .slnil, rfl, .inl ⟨?_, rfl⟩⟩
    unfold Printing.left
    split <;> rfl
  exact (hstart.run_append hg hrun).run

/-- What holds of every piece of every record holds of what has been printed. -/
theorem Guarded.forall_printed (hg : Guarded S I holder keep) {Q : ε → Prop}
    (hrecord : ∀ {s a s' record}, I s → S.step s a = .ok (s', record) → ∀ e ∈ record, Q e) :
    ∀ {acts : List act} {p p' : Printing τ σ ε} {us : List Unit}, I p.state →
      (∀ t, ∀ e ∈ p.pending t, Q e) → (∀ e ∈ p.printed, Q e) →
      runOps S.piece p acts = .ok (p', us) → ∀ e ∈ p'.printed, Q e := by
  intro acts
  induction acts with
  | nil => intro p p' us _ _ hprinted hrun; cases hrun; exact hprinted
  | cons a acts ih =>
    intro p p' us hinv hpending hprinted hrun
    obtain ⟨⟨q, u⟩, hq, hrun⟩ := Outcome.bind_eq_ok.mp hrun
    obtain ⟨⟨q', us'⟩, hq', hrun⟩ := Outcome.bind_eq_ok.mp hrun
    cases hrun
    have hupdate : ∀ more : List ε, (∀ e ∈ more, Q e) →
        ∀ t, ∀ e ∈ Function.update p.pending (S.who a) more t, Q e := by
      intro more hmore t
      by_cases hself : t = S.who a
      · subst hself
        rwa [Function.update_self]
      · rw [Function.update_of_ne hself]
        exact hpending t
    unfold System.piece at hq
    split at hq
    · next e rest hhead =>
      cases hq
      have hall := hpending (S.who a)
      rw [hhead] at hall
      refine ih (p := ⟨p.state, Function.update p.pending (S.who a) rest, p.printed ++ [e]⟩) hinv
        (hupdate rest fun e he => hall e (List.mem_cons_of_mem _ he)) ?_ hq'
      intro e he
      obtain he | he := List.mem_append.mp he
      · exact hprinted e he
      · rw [List.mem_singleton.mp he]
        exact hall _ List.mem_cons_self
    · obtain ⟨⟨s, record⟩, hs, hq⟩ := Outcome.bind_eq_ok.mp hq
      cases hq
      exact ih (p := ⟨s, Function.update p.pending (S.who a) record, p.printed⟩)
        (hg.keeps hinv hs) (hupdate record (hrecord hinv hs)) hprinted hq'

end Runs

end Pieces
