import Mikelibc.Popen.Wiring

/-! # The descriptors of the caller

Each of the error labels closes what was opened before the call that failed, the last
pipe first, so a call that fails leaves the table as it was. One that succeeds leaves
three descriptors more, the other ends of which the child has. -/
namespace Mikelibc.Popen
open CSem Table

variable {α : Type} {calls : Calls} {rwepipe : Vector Int 3} {t : Table α}

/-- The three pipes and the process are granted, and there are numbers for all six descriptors. -/
def Succeeds (calls : Calls) (t : Table α) : Prop :=
  ∃ inn t₁ out t₂ err t₃, pipe calls 0 t.before = some (inn, t₁) ∧
    pipe calls 1 t₁ = some (out, t₂) ∧ pipe calls 2 t₂ = some (err, t₃) ∧ calls.fork ≠ none

/-- The caller has three descriptors more, which are in `rwepipe`. -/
def Gains (before : Table α) (rwepipe : Vector Int 3) (after : Table (File α)) : Prop :=
  ∃ i o e : Nat, [i, o, e].Nodup ∧ rwepipe = #v[(i : Int), o, e] ∧
    (∀ n ∈ [i, o, e], before.file n = none) ∧
    after.file i = some (.writeEnd 0) ∧ after.file o = some (.readEnd 1) ∧
    after.file e = some (.readEnd 2) ∧
    ∀ n ∉ [i, o, e], after.file n = before.before.file n

/-! ## Failure -/

section Unwinding

variable {inn out err : Ends} {t₀ t₁ t₂ t₃ : Table (File α)}

theorem errorOut_undoes (hin : Piped t₀ 0 inn t₁) :
    errorOut rwepipe inn t₁ = errorIn rwepipe t₀ := by
  rw [errorOut, hin.close_ends]

theorem errorErr_undoes (hin : Piped t₀ 0 inn t₁) (hout : Piped t₁ 1 out t₂) :
    errorErr rwepipe inn out t₂ = errorIn rwepipe t₀ := by
  rw [errorErr, hout.close_ends, errorOut_undoes hin]

theorem errorFork_undoes (hin : Piped t₀ 0 inn t₁) (hout : Piped t₁ 1 out t₂)
    (herr : Piped t₂ 2 err t₃) : errorFork rwepipe inn out err t₃ = errorIn rwepipe t₀ := by
  rw [errorFork, herr.close_ends, errorErr_undoes hin hout]

end Unwinding

/-- Whichever call fails, the table is the one before. -/
theorem popenRWE_fails (h : ¬ Succeeds calls t) :
    popenRWE calls rwepipe t = ⟨-1, rwepipe, t.before, none⟩ := by
  unfold popenRWE
  split
  · rfl
  next inn t₁ hin =>
  split
  · exact errorOut_undoes (pipe_piped hin)
  next out t₂ hout =>
  split
  · exact errorErr_undoes (pipe_piped hin) (pipe_piped hout)
  next err t₃ herr =>
  split
  · exact errorFork_undoes (pipe_piped hin) (pipe_piped hout) (pipe_piped herr)
  next pid hfork =>
  exact absurd ⟨inn, t₁, out, t₂, err, t₃, hin, hout, herr, by simp [hfork]⟩ h

/-! ## Success -/

/-- What the parent closes and what it keeps are the six new descriptors. -/
theorem parent_gains {inn out err : Ends} {t₁ t₂ t₃ : Table (File α)}
    (hin : Piped t.before 0 inn t₁) (hout : Piped t₁ 1 out t₂) (herr : Piped t₂ 2 err t₃) :
    Gains t #v[(inn.write : Int), out.read, err.read] (parent inn out err t₃) := by
  have hpipes := threePipes_of hin hout herr
  obtain ⟨hio, hop, hpo, hpe, her⟩ := hpipes.order
  obtain ⟨hinw, houtr, herrr⟩ := hpipes.parent_files
  -- a number that a later pipe gets was free before
  have hfree₁ : ∀ n, inn.write < n → t₁.file n = none → t.file n = none := fun n hn hnone => by
    rw [hin.file_other (by omega) (by omega)] at hnone
    exact file_before_eq_none.mp hnone
  have hfree₂ : ∀ n, out.write < n → t₂.file n = none → t.file n = none := fun n hn hnone => by
    rw [hout.file_other (by omega) (by omega)] at hnone
    exact hfree₁ n (by omega) hnone
  refine ⟨inn.write, out.read, err.read, ?_, rfl, ?_, hinw, houtr, herrr, fun n hn => ?_⟩
  · simp only [List.nodup_cons, List.mem_cons, List.not_mem_nil, List.nodup_nil, or_false, not_or,
      not_false_iff, and_true]
    omega
  · simp only [List.forall_mem_cons]
    exact ⟨file_before_eq_none.mp hin.write, hfree₁ _ hop hout.read, hfree₂ _ hpe herr.read,
      fun n hn => by cases hn⟩
  · simp only [List.mem_cons, List.not_mem_nil, or_false, not_or] at hn
    obtain ⟨hi, ho, he⟩ := hn
    have hclosed : ∀ m, m = inn.read ∨ m = out.write ∨ m = err.write →
        (parent inn out err t₃).file m = none := fun m hm => by
      simp only [parent, file_close]
      rcases hm with rfl | rfl | rfl <;> simp
    by_cases hir : n = inn.read
    · rw [hclosed n (.inl hir), hir, hin.read]
    by_cases how : n = out.write
    · rw [hclosed n (.inr (.inl how)), how, eq_comm, file_before_eq_none]
      exact hfree₁ _ (by omega) hout.write
    by_cases hew : n = err.write
    · rw [hclosed n (.inr (.inr hew)), hew, eq_comm, file_before_eq_none]
      exact hfree₂ _ (by omega) herr.write
    rw [parent, file_close_of_ne _ hew, file_close_of_ne _ how, file_close_of_ne _ hir,
      herr.file_other he hew, hout.file_other ho how, hin.file_other hir hi]

/-- **The caller's side of `popenRWE`.** If a pipe or the process is refused, the call returns -1
with the table and `rwepipe` as they were; if not, it returns the number of the process, and the
caller has gained the three descriptors in `rwepipe`. -/
theorem popenRWE_atomic (calls : Calls) (rwepipe : Vector Int 3) (t : Table α) :
    (¬ Succeeds calls t ∧ popenRWE calls rwepipe t = ⟨-1, rwepipe, t.before, none⟩) ∨
    (Succeeds calls t ∧ (∃ pid, calls.fork = some pid ∧ (popenRWE calls rwepipe t).result = pid) ∧
      Gains t (popenRWE calls rwepipe t).rwepipe (popenRWE calls rwepipe t).parent) := by
  by_cases hsucceeds : Succeeds calls t
  · obtain ⟨inn, t₁, out, t₂, err, t₃, hin, hout, herr, hfork⟩ := id hsucceeds
    obtain ⟨pid, hfork⟩ := Option.ne_none_iff_exists'.mp hfork
    have hcall : popenRWE calls rwepipe t = ⟨pid, #v[(inn.write : Int), out.read, err.read],
        parent inn out err t₃, some (child inn out err t₃)⟩ := by
      simp only [popenRWE, hin, hout, herr, hfork]
    rw [hcall]
    exact .inr ⟨hsucceeds, ⟨pid, hfork, rfl⟩,
      parent_gains (pipe_piped hin) (pipe_piped hout) (pipe_piped herr)⟩
  · exact .inl ⟨hsucceeds, popenRWE_fails hsucceeds⟩

end Mikelibc.Popen
