import Mikelibc.Popen.Code

/-! # What the program finds on its three streams

Each `dup` of the child gets the number just closed when all lower numbers are
taken. An end of a pipe that has itself been given the number 0 is closed before it
is copied; this happens exactly when 0 was free at the call. -/
namespace Mikelibc.Popen
open CSem Table

variable {α : Type} {calls : Calls} {rwepipe : Vector Int 3} {t : Table α}

/-- The child has the other ends of the three pipes of the parent on its three streams. -/
structure Wired (rwepipe : Vector Int 3) (parent child : Table (File α)) : Prop where
  stdin : ∃ p, child.file 0 = some (.readEnd p) ∧
    parent.lookup rwepipe[0] = some (.writeEnd p)
  stdout : ∃ p, child.file 1 = some (.writeEnd p) ∧
    parent.lookup rwepipe[1] = some (.readEnd p)
  stderr : ∃ p, child.file 2 = some (.writeEnd p) ∧
    parent.lookup rwepipe[2] = some (.readEnd p)

/-- The table after the three pipes, their six descriptors in the order they were given. -/
structure ThreePipes (start : Table α) (inn out err : Ends) (t : Table (File α)) : Prop where
  order : inn.read < inn.write ∧ inn.write < out.read ∧ out.read < out.write ∧
    out.write < err.read ∧ err.read < err.write
  limit : err.write < t.limit
  free : start.file inn.read = none
  taken : ∀ n < inn.read, start.file n ≠ none
  inRead : t.file inn.read = some (.readEnd 0)
  inWrite : t.file inn.write = some (.writeEnd 0)
  outRead : t.file out.read = some (.readEnd 1)
  outWrite : t.file out.write = some (.writeEnd 1)
  errRead : t.file err.read = some (.readEnd 2)
  errWrite : t.file err.write = some (.writeEnd 2)
  only : ∀ n, t.file n = some (.readEnd 0) → n = inn.read

theorem pipe_piped {t u : Table (File α)} {p : Nat} {ends : Ends}
    (h : pipe calls p t = some (ends, u)) : Piped t p ends u := by
  unfold pipe at h
  split at h
  · exact pipe_spec h
  · cases h

theorem threePipes_of {inn out err : Ends} {t : Table α} {t₁ t₂ t₃ : Table (File α)}
    (hin : Piped t.before 0 inn t₁) (hout : Piped t₁ 1 out t₂) (herr : Piped t₂ 2 err t₃) :
    ThreePipes t inn out err t₃ := by
  have hio := hin.lt_next hout
  have hoe := hout.lt_next herr
  have hi := hin.lt
  have ho := hout.lt
  have he := herr.lt
  exact {
    order := ⟨hi, hio, ho, hoe, he⟩
    limit := herr.limit_eq ▸ herr.limit
    free := file_before_eq_none.mp hin.read
    taken n hn hnone :=
      hin.taken n (Nat.lt_trans hn hi) (Nat.ne_of_lt hn) (file_before_eq_none.mpr hnone)
    inRead := by
      rw [herr.file_other (by omega) (by omega), hout.file_other (by omega) (by omega),
        hin.file_read]
    inWrite := by
      rw [herr.file_other (by omega) (by omega), hout.file_other (by omega) (by omega),
        hin.file_write]
    outRead := by rw [herr.file_other (by omega) (by omega), hout.file_read]
    outWrite := by rw [herr.file_other (by omega) (by omega), hout.file_write]
    errRead := herr.file_read
    errWrite := herr.file_write
    only n hn := by
      obtain ⟨_, hp⟩ | hn := herr.of_readEnd hn
      · cases hp
      obtain ⟨_, hp⟩ | hn := hout.of_readEnd hn
      · cases hp
      obtain ⟨hr, _⟩ | hn := hin.of_readEnd hn
      · exact hr
      · exact absurd hn file_before_ne_readEnd }

/-- A call that starts a child makes three pipes, and parent and child go on from there. -/
theorem popenRWE_started {c : Table (File α)} (h : (popenRWE calls rwepipe t).child = some c) :
    ∃ inn out err u, ThreePipes t inn out err u ∧ c = child inn out err u ∧
      (popenRWE calls rwepipe t).parent = parent inn out err u ∧
      (popenRWE calls rwepipe t).rwepipe = #v[(inn.write : Int), out.read, err.read] := by
  unfold popenRWE at h ⊢
  split at h
  · cases h
  next inn t₁ hin =>
  split at h
  · cases h
  next out t₂ hout =>
  split at h
  · cases h
  next err t₃ herr =>
  split at h
  · cases h
  next pid hfork =>
  cases h
  refine ⟨inn, out, err, t₃, threePipes_of (pipe_piped hin) (pipe_piped hout) (pipe_piped herr),
    rfl, ?_⟩
  simp

namespace ThreePipes

variable {inn out err : Ends} {u : Table (File α)}

theorem parent_files (h : ThreePipes t inn out err u) :
    (parent inn out err u).file inn.write = some (.writeEnd 0) ∧
      (parent inn out err u).file out.read = some (.readEnd 1) ∧
      (parent inn out err u).file err.read = some (.readEnd 2) := by
  have horder := h.order
  have hkept : ∀ {n}, n ≠ inn.read → n ≠ out.write → n ≠ err.write →
      (parent inn out err u).file n = u.file n := fun hi ho he => by
    rw [parent, file_close_of_ne _ he, file_close_of_ne _ ho, file_close_of_ne _ hi]
  refine ⟨?_, ?_, ?_⟩
  · rw [hkept (by omega) (by omega) (by omega), h.inWrite]
  · rw [hkept (by omega) (by omega) (by omega), h.outRead]
  · rw [hkept (by omega) (by omega) (by omega), h.errRead]

end ThreePipes

/-! ## The child -/

/-- With the lower numbers taken, the copy gets the number that was closed. -/
theorem reopen_lowest {u : Table (File α)} {n fd : Nat} {f : File α}
    (hlow : ∀ m < n, u.file m ≠ none) (hn : n < u.limit) (hne : fd ≠ n)
    (hfd : u.file fd = some f) : reopen u n fd = u.set n f := by
  have hfree : (u.close n).lowestFree = some n := by
    refine lowestFree_eq_some.mpr ⟨hn, by rw [file_close, if_pos rfl], fun m hm => ?_⟩
    rw [file_close, if_neg (Nat.ne_of_lt hm)]
    exact hlow m hm
  have hopen : (u.close n).file fd = some f := by rw [file_close, if_neg hne, hfd]
  rw [reopen, dup_lowestFree hfree hopen, set_close]

theorem lacks_reopen {u : Table (File α)} {f : File α} (h : Lacks u f) (n fd : Nat) :
    Lacks (reopen u n fd) f := by
  unfold reopen
  dsimp only
  split
  · next hdup => exact (h.close n).dup hdup
  · exact h.close n

/-- A number is closed before what it stood for is copied. -/
theorem lacks_reopen_self {u : Table (File α)} {n : Nat} {f : File α}
    (honly : ∀ m, u.file m = some f → m = n) : Lacks (reopen u n n) f := by
  have hclosed : (u.close n).file n = none := by rw [file_close, if_pos rfl]
  rw [reopen, Table.dup, hclosed, Option.bind_none]
  intro m hm
  rw [honly m (file_of_close hm), hclosed] at hm
  cases hm

namespace ThreePipes

variable {inn out err : Ends} {u : Table (File α)}

/-- What is not an end the child drops stays open until it turns to its streams. -/
theorem dropped_file {n : Nat} (hi : n ≠ inn.write) (ho : n ≠ out.read) (he : n ≠ err.read) :
    (((u.close inn.write).close out.read).close err.read).file n = u.file n := by
  rw [file_close_of_ne _ he, file_close_of_ne _ ho, file_close_of_ne _ hi]

/-- With 0 open at the call each end comes to its stream, and nothing else is touched. -/
theorem child_eq (h : ThreePipes t inn out err u) (h0 : t.file 0 ≠ none) :
    child inn out err u = (((((u.close inn.write).close out.read).close err.read).set 0
      (.readEnd 0)).set 1 (.writeEnd 1)).set 2 (.writeEnd 2) := by
  have horder := h.order
  have hlimit := h.limit
  have hpos : inn.read ≠ 0 := fun hzero => h0 (hzero ▸ h.free)
  let c := ((u.close inn.write).close out.read).close err.read
  have hin : reopen c 0 inn.read = c.set 0 (.readEnd 0) :=
    reopen_lowest (fun m hm => absurd hm (Nat.not_lt_zero m)) (by simp only [c, limit_close]; omega)
      hpos (by rw [dropped_file (by omega) (by omega) (by omega), h.inRead])
  -- 0 is taken, so the next copy goes to 1
  have hout : reopen (c.set 0 (.readEnd 0)) 1 out.write =
      (c.set 0 (.readEnd 0)).set 1 (.writeEnd 1) := by
    refine reopen_lowest (fun m hm => ?_) (by simp only [c, limit_set, limit_close]; omega)
      (by omega) ?_
    · rw [Nat.lt_one_iff.mp hm, file_set, if_pos rfl]
      exact Option.some_ne_none _
    · rw [file_set, if_neg (by omega), dropped_file (by omega) (by omega) (by omega), h.outWrite]
  have herr : reopen ((c.set 0 (.readEnd 0)).set 1 (.writeEnd 1)) 2 err.write =
      ((c.set 0 (.readEnd 0)).set 1 (.writeEnd 1)).set 2 (.writeEnd 2) := by
    refine reopen_lowest (fun m hm => ?_) (by simp only [c, limit_set, limit_close]; omega)
      (by omega) ?_
    · obtain rfl | rfl : m = 0 ∨ m = 1 := by omega
      · exact nofun
      · exact nofun
    · rw [file_set, if_neg (by omega), file_set, if_neg (by omega),
        dropped_file (by omega) (by omega) (by omega), h.errWrite]
  rw [← herr, ← hout, ← hin]
  rfl

theorem child_wired (h : ThreePipes t inn out err u) (h0 : t.file 0 ≠ none) :
    (child inn out err u).file 0 = some (.readEnd 0) ∧
      (child inn out err u).file 1 = some (.writeEnd 1) ∧
      (child inn out err u).file 2 = some (.writeEnd 2) := by
  rw [h.child_eq h0]
  exact ⟨rfl, rfl, rfl⟩

/-- With 0 free at the call the child has no descriptor for the pipe it is to read from. -/
theorem child_lacks (h : ThreePipes t inn out err u) (h0 : t.file 0 = none) :
    Lacks (child inn out err u) (.readEnd 0) := by
  have hzero : inn.read = 0 := by
    by_contra hpos
    exact h.taken 0 (Nat.pos_of_ne_zero hpos) h0
  have honly : ∀ m, (((u.close inn.write).close out.read).close err.read).file m =
      some (.readEnd 0) → m = 0 := fun m hm =>
    hzero ▸ h.only m (file_of_close (file_of_close (file_of_close hm)))
  have hstdin := lacks_reopen_self honly
  unfold child
  rw [hzero]
  exact lacks_reopen (lacks_reopen hstdin 1 out.write) 2 err.write

end ThreePipes

/-- **The wiring of the child.** In every call that starts one, its three streams are the other
ends of the pipes of the parent if and only if descriptor 0 was open at the call. -/
theorem popenRWE_wired_iff (calls : Calls) (rwepipe : Vector Int 3) (t : Table α)
    (c : Table (File α)) (h : (popenRWE calls rwepipe t).child = some c) :
    Wired (popenRWE calls rwepipe t).rwepipe (popenRWE calls rwepipe t).parent c ↔
      t.file 0 ≠ none := by
  obtain ⟨inn, out, err, u, hpipes, rfl, hparent, hrwepipe⟩ := popenRWE_started h
  rw [hparent, hrwepipe]
  obtain ⟨hin, hout, herr⟩ := hpipes.parent_files
  constructor
  · intro hwired h0
    obtain ⟨p, hchild, hp⟩ := hwired.stdin
    -- the parent can write to the pipe numbered 0 only
    have hpipe : p = 0 := by
      have hsame := hin.symm.trans hp
      cases hsame
      rfl
    exact hpipes.child_lacks h0 0 (hpipe ▸ hchild)
  · intro h0
    obtain ⟨hstdin, hstdout, hstderr⟩ := hpipes.child_wired h0
    exact ⟨⟨0, hstdin, hin⟩, ⟨1, hstdout, hout⟩, ⟨2, hstderr, herr⟩⟩

/-- The three streams of a caller, and no other files. -/
def streams : Table Nat := ⟨16, fun n => if n < 3 then some n else none⟩

def granted : Calls := ⟨fun _ => true, some ⟨100, by decide⟩⟩

/-- A caller whose three streams are open. -/
theorem popenRWE_wired_streams :
    Wired (popenRWE granted #v[0, 0, 0] streams).rwepipe
      (popenRWE granted #v[0, 0, 0] streams).parent
      ((popenRWE granted #v[0, 0, 0] streams).child.get (by decide)) :=
  (popenRWE_wired_iff granted #v[0, 0, 0] streams _ (Option.some_get _).symm).mpr (by decide)

def noStdin : Table Nat := streams.close 0

/-- The child of a caller that has closed its standard input has the pipe for output on
descriptor 0. -/
theorem popenRWE_loses_stdin :
    ¬ ∀ (calls : Calls) (rwepipe : Vector Int 3) (t : Table Nat) (c : Table (File Nat)),
      (popenRWE calls rwepipe t).child = some c →
        Wired (popenRWE calls rwepipe t).rwepipe (popenRWE calls rwepipe t).parent c := by
  intro h
  have hstarted : (popenRWE granted #v[0, 0, 0] noStdin).child.isSome := by decide
  have hwired := h granted #v[0, 0, 0] noStdin _ (Option.some_get hstarted).symm
  obtain ⟨p, hp, _⟩ := hwired.stdin
  have hout : ((popenRWE granted #v[0, 0, 0] noStdin).child.get hstarted).file 0 =
      some (.writeEnd 1) := rfl
  rw [hout] at hp
  cases hp

end Mikelibc.Popen
