import Mikelibc.Popen.Atomic

/-! # When the pipes of the children come to their end

A pipe comes to its end when nobody has a descriptor for its write end any more. A process that makes
call after call of `popenRWE` hands every child the descriptors it holds at that time, among them
what it writes to the earlier children with. Nobody but the child itself can keep the parent waiting
for the end of its output; but the input of a child does not end before the children that were started
until the parent has closed it have exited too (`popen_input_ends_iff`). -/
namespace Mikelibc.Popen
open CSem Table

/-! ## A process and its children -/

/-- A file of the process, or an end of one of the three pipes of the child with this number. -/
inductive Name (α : Type)
  | own (a : α)
  | readEnd (child pipe : Nat)
  | writeEnd (child pipe : Nat)

variable {α : Type}

/-- What the call that starts this child opens has its number from then on. -/
def File.name (k : Nat) : File (Name α) → Name α
  | .other a => a
  | .readEnd p => .readEnd k p
  | .writeEnd p => .writeEnd k p

/-- The descriptors of the process and of every child it has started; a child that has exited
has none. -/
structure Processes (α : Type) where
  parent : Table (Name α)
  children : List (Option (Table (Name α)))

inductive Act where
  | popen (calls : Calls) (rwepipe : Vector Int 3)
  | close (fd : Nat)
  | exit (child : Nat)

def Processes.step (s : Processes α) : Act → Processes α
  | .popen calls rwepipe =>
    let r := popenRWE calls rwepipe s.parent
    let name := File.name s.children.length
    ⟨r.parent.map name, s.children ++ (r.child.map fun c => some (c.map name)).toList⟩
  | .close fd => { s with parent := s.parent.close fd }
  | .exit child => { s with children := s.children.set child none }

def Processes.run (s : Processes α) (acts : List Act) : Processes α := acts.foldl Processes.step s

/-- Nobody has a descriptor for the file. -/
def Processes.Lacks (s : Processes α) (f : Name α) : Prop :=
  Table.Lacks s.parent f ∧ ∀ c, some c ∈ s.children → Table.Lacks c f

/-! ## One call -/

section Call
variable {calls : Calls} {rwepipe : Vector Int 3} {t : Table α}

/-- What a call does, by the six descriptors it opens. -/
theorem popenRWE_cases (calls : Calls) (rwepipe : Vector Int 3) (t : Table α) :
    ((popenRWE calls rwepipe t).child = none ∧ (popenRWE calls rwepipe t).parent = t.before) ∨
    ∃ inn out err t₁ t₂ t₃, Piped t.before 0 inn t₁ ∧ Piped t₁ 1 out t₂ ∧ Piped t₂ 2 err t₃ ∧
      (popenRWE calls rwepipe t).child = some (child inn out err t₃) ∧
      (popenRWE calls rwepipe t).parent = parent inn out err t₃ ∧
      (popenRWE calls rwepipe t).rwepipe = #v[(inn.write : Int), out.read, err.read] := by
  by_cases hsucceeds : Succeeds calls t
  · obtain ⟨inn, t₁, out, t₂, err, t₃, hin, hout, herr, hfork⟩ := hsucceeds
    obtain ⟨pid, hfork⟩ := Option.ne_none_iff_exists'.mp hfork
    refine .inr ⟨inn, out, err, t₁, t₂, t₃, pipe_piped hin, pipe_piped hout, pipe_piped herr, ?_⟩
    simp [popenRWE, hin, hout, herr, hfork]
  · rw [popenRWE_fails hsucceeds]
    exact .inl ⟨rfl, rfl⟩

variable {inn out err : Ends} {t₁ t₂ t₃ : Table (File α)}

theorem pipes_files (hin : Piped t.before 0 inn t₁) (hout : Piped t₁ 1 out t₂)
    (herr : Piped t₂ 2 err t₃) {n : Nat} {f : File α} (hn : t₃.file n = some f) :
    (∃ p, f = .readEnd p) ∨ (n = inn.write ∧ f = .writeEnd 0) ∨ f = .writeEnd 1 ∨ f = .writeEnd 2 ∨
      ∃ a, f = .other a ∧ t.file n = some a := by
  obtain ⟨_, rfl⟩ | ⟨_, rfl⟩ | hn := herr.of_file hn
  · exact .inl ⟨2, rfl⟩
  · exact .inr (.inr (.inr (.inl rfl)))
  obtain ⟨_, rfl⟩ | ⟨_, rfl⟩ | hn := hout.of_file hn
  · exact .inl ⟨1, rfl⟩
  · exact .inr (.inr (.inl rfl))
  obtain ⟨_, rfl⟩ | ⟨hw, rfl⟩ | hn := hin.of_file hn
  · exact .inl ⟨0, rfl⟩
  · exact .inr (.inl ⟨hw, rfl⟩)
  obtain ⟨a, ha, rfl⟩ := Option.map_eq_some_iff.mp hn
  exact .inr (.inr (.inr (.inr ⟨a, rfl, ha⟩)))

/-- A copy goes to a free number, so what is open elsewhere stays. -/
theorem reopen_keeps {u : Table (File α)} {n m fd : Nat} {f : File α} (hne : m ≠ n)
    (hm : u.file m = some f) : (reopen u n fd).file m = some f := by
  have hclosed : (u.close n).file m = some f := (file_close_of_ne u hne).trans hm
  unfold reopen
  dsimp only
  split
  · next hdup =>
    obtain ⟨b, _, halloc⟩ := Option.bind_eq_some_iff.mp hdup
    obtain ⟨hlow, rfl⟩ := alloc_eq_some.mp halloc
    obtain ⟨_, hfree, _⟩ := lowestFree_eq_some.mp hlow
    have hother : m ≠ _ := fun he => Option.some_ne_none f (hclosed.symm.trans (he ▸ hfree))
    rw [file_set, if_neg hother, hclosed]
  · exact hclosed

/-- And what is open afterwards and is no copy was open before. -/
theorem file_of_reopen {u : Table (File α)} {n m fd : Nat} {f : File α} (hfd : u.file fd ≠ some f)
    (hm : (reopen u n fd).file m = some f) : m ≠ n ∧ u.file m = some f := by
  have hopen : (u.close n).file m = some f → m ≠ n ∧ u.file m = some f := by
    refine fun h => ⟨fun he => ?_, file_of_close h⟩
    rw [file_close, if_pos he] at h
    cases h
  unfold reopen at hm
  dsimp only at hm
  split at hm
  · next hdup =>
    obtain ⟨b, hb, halloc⟩ := Option.bind_eq_some_iff.mp hdup
    obtain ⟨_, rfl⟩ := alloc_eq_some.mp halloc
    rw [file_set] at hm
    split at hm
    · exact absurd ((file_of_close hb).trans hm) hfd
    · exact hopen hm
  · exact hopen hm

theorem ThreePipes.copied {u : Table (File α)} (h : ThreePipes t inn out err u) :
    (((u.close inn.write).close out.read).close err.read).file inn.read = some (.readEnd 0) ∧
    (reopen (((u.close inn.write).close out.read).close err.read) 0 inn.read).file out.write =
      some (.writeEnd 1) ∧
    (reopen (reopen (((u.close inn.write).close out.read).close err.read) 0 inn.read) 1
      out.write).file err.write = some (.writeEnd 2) := by
  have horder := h.order
  refine ⟨?_, reopen_keeps (by omega) ?_, reopen_keeps (by omega) (reopen_keeps (by omega) ?_)⟩
  · rw [dropped_file (by omega) (by omega) (by omega), h.inRead]
  · rw [dropped_file (by omega) (by omega) (by omega), h.outWrite]
  · rw [dropped_file (by omega) (by omega) (by omega), h.errWrite]

theorem ThreePipes.child_keeps {u : Table (File α)} {n : Nat} {f : File α} (hlow : 2 < n)
    (hi : n ≠ inn.write) (ho : n ≠ out.read) (he : n ≠ err.read) (hn : u.file n = some f) :
    (child inn out err u).file n = some f :=
  reopen_keeps (by omega) (reopen_keeps (by omega) (reopen_keeps (by omega)
    ((dropped_file hi ho he).trans hn)))

/-- Apart from its streams the child has what was open at the call of `fork`, above the streams. -/
theorem ThreePipes.child_file {u : Table (File α)} (h : ThreePipes t inn out err u) {n : Nat}
    {f : File α} (hn : (child inn out err u).file n = some f) (hin : f ≠ .readEnd 0)
    (hout : f ≠ .writeEnd 1) (herr : f ≠ .writeEnd 2) :
    2 < n ∧ n ≠ inn.write ∧ u.file n = some f := by
  obtain ⟨hread, hwrite, hlast⟩ := h.copied
  obtain ⟨h2, hn⟩ := file_of_reopen (by rw [hlast]; simpa using herr.symm) hn
  obtain ⟨h1, hn⟩ := file_of_reopen (by rw [hwrite]; simpa using hout.symm) hn
  obtain ⟨h0, hn⟩ := file_of_reopen (by rw [hread]; simpa using hin.symm) hn
  have hopen := file_of_close (file_of_close hn)
  refine ⟨by omega, fun he => ?_, file_of_close hopen⟩
  rw [file_close, if_pos he] at hopen
  cases hopen

/-- The write ends of its own output are above the streams, whatever was closed before. -/
theorem ThreePipes.child_output {u : Table (File α)} (h : ThreePipes t inn out err u) {p : Nat}
    (hp : p = 1 ∨ p = 2) : ∃ n, (child inn out err u).file n = some (.writeEnd p) := by
  have horder := h.order
  obtain rfl | rfl := hp
  · exact ⟨out.write, ThreePipes.child_keeps (by omega) (by omega) (by omega) (by omega) h.outWrite⟩
  · exact ⟨err.write, ThreePipes.child_keeps (by omega) (by omega) (by omega) (by omega) h.errWrite⟩

theorem child_inherits (hin : Piped t.before 0 inn t₁) (hout : Piped t₁ 1 out t₂)
    (herr : Piped t₂ 2 err t₃) {n : Nat} {a : α} (hlow : 2 < n) (hn : t.file n = some a) :
    (child inn out err t₃).file n = some (.other a) := by
  have hbefore : t.before.file n = some (.other a) := Option.map_eq_some_iff.mpr ⟨a, hn, rfl⟩
  obtain ⟨_, hi, hn⟩ := hin.keeps hbefore
  obtain ⟨ho, _, hn⟩ := hout.keeps hn
  obtain ⟨he, _, hn⟩ := herr.keeps hn
  exact ThreePipes.child_keeps hlow hi ho he hn

/-- What the child holds but for read ends: its own output, and what it inherits. -/
theorem child_files (hin : Piped t.before 0 inn t₁) (hout : Piped t₁ 1 out t₂)
    (herr : Piped t₂ 2 err t₃) {n : Nat} {f : File α}
    (hn : (child inn out err t₃).file n = some f) : (∃ p, f = .readEnd p) ∨ f = .writeEnd 1 ∨
      f = .writeEnd 2 ∨ (2 < n ∧ ∃ a, f = .other a ∧ t.file n = some a) := by
  by_cases h0 : f = .readEnd 0
  · exact .inl ⟨0, h0⟩
  by_cases h1 : f = .writeEnd 1
  · exact .inr (.inl h1)
  by_cases h2 : f = .writeEnd 2
  · exact .inr (.inr (.inl h2))
  obtain ⟨hlow, hne, hu⟩ := (threePipes_of hin hout herr).child_file hn h0 h1 h2
  obtain hread | ⟨hw, _⟩ | h1 | h2 | hother := pipes_files hin hout herr hu
  · exact .inl hread
  · exact absurd hw hne
  · exact .inr (.inl h1)
  · exact .inr (.inr (.inl h2))
  · exact .inr (.inr (.inr ⟨hlow, hother⟩))

end Call

/-! ## One step -/

def Holds (t : Table (Name α)) (f : Name α) : Prop := ∃ n, t.file n = some f

/-- A child is started, which the process writes to with the descriptor `w`: the other ends of its
pipes are its own, and the rest of what it holds it has from the process. -/
structure Started (s s' : Processes α) (w : Nat) (c : Table (Name α)) : Prop where
  children : s'.children = s.children ++ [some c]
  input : s'.parent.file w = some (.writeEnd s.children.length 0)
  keeps : ∀ n f, s.parent.file n = some f → s'.parent.file n = some f
  adds : ∀ n k p, s'.parent.file n = some (.writeEnd k p) →
    (n = w ∧ k = s.children.length ∧ p = 0) ∨ s.parent.file n = some (.writeEnd k p)
  output : ∀ p, p = 1 ∨ p = 2 → Holds c (.writeEnd s.children.length p)
  inherits : ∀ n f, 2 < n → s.parent.file n = some f → c.file n = some f
  has : ∀ n k p, c.file n = some (.writeEnd k p) →
    (k = s.children.length ∧ (p = 1 ∨ p = 2)) ∨ (2 < n ∧ s.parent.file n = some (.writeEnd k p))

variable {s s' : Processes α} {calls : Calls} {rwepipe : Vector Int 3} {k w m : Nat}
  {c : Table (Name α)}

theorem before_name (t : Table (Name α)) (k : Nat) : t.before.map (File.name k) = t := by
  cases t
  simp only [Table.map, before, Option.map_map]
  congr
  funext n
  exact Option.map_id'

theorem step_popen (s : Processes α) (calls : Calls) (rwepipe : Vector Int 3) :
    ((popenRWE calls rwepipe s.parent).child = none ∧ s.step (.popen calls rwepipe) = s) ∨
    ∃ (w : Nat) (c : Table (Name α)), (popenRWE calls rwepipe s.parent).child ≠ none ∧
      (popenRWE calls rwepipe s.parent).rwepipe[0]? = some (w : Int) ∧
      Started s (s.step (.popen calls rwepipe)) w c := by
  obtain ⟨hnone, hparent⟩ | ⟨inn, out, err, t₁, t₂, t₃, hin, hout, herr, hchild, hparent, hrwe⟩ :=
    popenRWE_cases calls rwepipe s.parent
  · refine .inl ⟨hnone, ?_⟩
    simp only [Processes.step, hnone, hparent, before_name, Option.map_none, Option.toList_none,
      List.append_nil]
  · let name := File.name s.children.length (α := α)
    obtain ⟨i, o, e, _, hends, hfree, hi, ho, he, hothers⟩ := parent_gains hin hout herr
    have hpipes := threePipes_of hin hout herr
    obtain rfl : inn.write = i := Int.ofNat_inj.mp (congrArg (fun v => v[0]) hends)
    have hsame : ∀ n ∉ [inn.write, o, e], ((parent inn out err t₃).map name).file n =
        s.parent.file n := fun n hn => by
      rw [file_map, hothers n hn, ← file_map, before_name]
    refine .inr ⟨inn.write, (child inn out err t₃).map name, by rw [hchild]; simp,
      by rw [hrwe]; rfl, ?_⟩
    refine ⟨by simp only [Processes.step, hchild]; rfl, ?_, fun n f hn => ?_,
      fun n k p hn => ?_, fun p hp => ?_, fun n f hlow hn => ?_, fun n k p hn => ?_⟩
    · simp only [Processes.step, hparent, file_map]
      rw [hi]
      rfl
    · have hnot : n ∉ [inn.write, o, e] := fun hmem => by
        cases (hfree n hmem).symm.trans hn
      simpa only [Processes.step, hparent] using (hsame n hnot).trans hn
    · simp only [Processes.step, hparent] at hn
      by_cases hmem : n ∈ [inn.write, o, e]
      · rw [file_map] at hn
        simp only [List.mem_cons, List.not_mem_nil, or_false] at hmem
        obtain rfl | rfl | rfl := hmem
        · rw [hi] at hn
          cases hn
          exact .inl ⟨rfl, rfl, rfl⟩
        · rw [ho] at hn
          cases hn
        · rw [he] at hn
          cases hn
      · exact .inr ((hsame n hmem).symm.trans hn)
    · obtain ⟨n, hn⟩ := hpipes.child_output hp
      exact ⟨n, by rw [file_map, hn]; rfl⟩
    · rw [file_map, child_inherits hin hout herr hlow hn]
      rfl
    · obtain ⟨f, hf, hname⟩ := Option.map_eq_some_iff.mp hn
      obtain ⟨q, rfl⟩ | rfl | rfl | ⟨hlow, a, rfl, ha⟩ := child_files hin hout herr hf
      · cases hname
      · cases hname
        exact .inl ⟨rfl, .inl rfl⟩
      · cases hname
        exact .inl ⟨rfl, .inr rfl⟩
      · exact .inr ⟨hlow, ha.trans (congrArg some hname)⟩

/-! ## Who has a write end -/

/-- The process has write ends only of what its children read, a child those of its own output,
and of what earlier children read. -/
structure Tidy (s : Processes α) : Prop where
  parent : ∀ k p, Holds s.parent (.writeEnd k p) → k < s.children.length ∧ p = 0
  output : ∀ i c, s.children[i]? = some (some c) → ∀ p, p = 1 ∨ p = 2 → Holds c (.writeEnd i p)
  has : ∀ i c, s.children[i]? = some (some c) → ∀ k p, Holds c (.writeEnd k p) →
    (k = i ∧ (p = 1 ∨ p = 2)) ∨ (k < i ∧ p = 0)

theorem lacks_iff {t : Table (Name α)} {f : Name α} : Table.Lacks t f ↔ ¬ Holds t f :=
  not_exists.symm

theorem holds_of_close {t : Table (Name α)} {f : Name α} {fd : Nat} (h : Holds (t.close fd) f) :
    Holds t f := by
  obtain ⟨n, hn⟩ := h
  exact ⟨n, file_of_close hn⟩

/-- A child that is there after others have exited was there before. -/
theorem exit_children {i : Nat} {child : Nat}
    (h : (s.children.set child none)[i]? = some (some c)) : s.children[i]? = some (some c) := by
  rw [List.getElem?_set] at h
  split at h
  · split at h <;> cases h
  · exact h

/-- After a call the children are the earlier ones and the new one. -/
theorem Started.child (h : Started s s' w c) {i : Nat} {d : Table (Name α)}
    (hi : s'.children[i]? = some (some d)) :
    (i = s.children.length ∧ d = c) ∨ s.children[i]? = some (some d) := by
  rw [h.children] at hi
  by_cases hlt : i < s.children.length
  · rw [List.getElem?_append_left hlt] at hi
    exact .inr hi
  · rw [List.getElem?_append_right (Nat.le_of_not_lt hlt), List.getElem?_singleton] at hi
    split at hi
    · cases hi
      exact .inl ⟨by omega, rfl⟩
    · cases hi

theorem Started.length (h : Started s s' w c) :
    s'.children.length = s.children.length + 1 := by
  rw [h.children, List.length_append]
  rfl

theorem Tidy.started (ht : Tidy s) (h : Started s s' w c) : Tidy s' := by
  have hlen := h.length
  refine ⟨fun k p hholds => ?_, fun i d hi p hp => ?_, fun i d hi k p hholds => ?_⟩
  · obtain ⟨n, hn⟩ := hholds
    obtain ⟨_, rfl, rfl⟩ | hn := h.adds n k p hn
    · exact ⟨by omega, rfl⟩
    · obtain ⟨hk, hp⟩ := ht.parent k p ⟨n, hn⟩
      exact ⟨by omega, hp⟩
  · obtain ⟨rfl, rfl⟩ | hi := h.child hi
    · exact h.output p hp
    · exact ht.output i d hi p hp
  · obtain ⟨rfl, rfl⟩ | hi := h.child hi
    · obtain ⟨n, hn⟩ := hholds
      obtain hown | ⟨_, hparent⟩ := h.has n k p hn
      · exact .inl hown
      · exact .inr (ht.parent k p ⟨n, hparent⟩)
    · exact ht.has i d hi k p hholds

theorem Tidy.step (ht : Tidy s) (a : Act) : Tidy (s.step a) := by
  cases a with
  | popen calls rwepipe =>
    obtain ⟨_, hsame⟩ | ⟨w, c, _, _, hstarted⟩ := step_popen s calls rwepipe
    · rwa [hsame]
    · exact ht.started hstarted
  | close fd => exact ⟨fun k p h => ht.parent k p (holds_of_close h), ht.output, ht.has⟩
  | exit child =>
    refine ⟨fun k p h => ?_, fun i d hi => ht.output i d (exit_children hi),
      fun i d hi => ht.has i d (exit_children hi)⟩
    obtain ⟨hk, hp⟩ := ht.parent k p h
    exact ⟨by simpa [Processes.step] using hk, hp⟩

/-! ## What a write end goes through -/

/-- The process can write to the child with this number by the descriptor `w`. Every child started
since can do so too, unless `w` is one of the three streams: these are closed in a child. -/
structure Kept (s : Processes α) (k w : Nat) : Prop where
  parent : s.parent.file w = some (.writeEnd k 0)
  only : ∀ n, s.parent.file n = some (.writeEnd k 0) → n = w
  later : ∀ i c, k < i → s.children[i]? = some (some c) → (Holds c (.writeEnd k 0) ↔ 2 < w)

/-- The process can not write to it any more, and neither can the children from `m` on. -/
structure Gone (s : Processes α) (k m : Nat) : Prop where
  parent : ¬ Holds s.parent (.writeEnd k 0)
  later : ∀ i c, m ≤ i → s.children[i]? = some (some c) → ¬ Holds c (.writeEnd k 0)
  known : k < s.children.length

theorem Kept.step (h : Kept s k w) (ht : Tidy s) {a : Act} (hne : a ≠ .close w) :
    Kept (s.step a) k w := by
  cases a with
  | popen calls rwepipe =>
    obtain ⟨_, hsame⟩ | ⟨v, c, _, _, hstarted⟩ := step_popen s calls rwepipe
    · rwa [hsame]
    · have hk := (ht.parent k 0 ⟨w, h.parent⟩).1
      refine ⟨hstarted.keeps w _ h.parent, fun n hn => ?_, fun i d hi hd => ?_⟩
      · obtain ⟨_, hnew, _⟩ | hn := hstarted.adds n k 0 hn
        · omega
        · exact h.only n hn
      · obtain ⟨rfl, rfl⟩ | hd := hstarted.child hd
        · refine ⟨fun ⟨n, hn⟩ => ?_, fun hw => ⟨w, hstarted.inherits w _ hw h.parent⟩⟩
          obtain ⟨hnew, _⟩ | ⟨hlow, hparent⟩ := hstarted.has n k 0 hn
          · omega
          · exact h.only n hparent ▸ hlow
        · exact h.later i d hi hd
  | close fd =>
    have hfd : w ≠ fd := fun he => hne (by rw [he])
    exact ⟨(file_close_of_ne _ hfd).trans h.parent, fun n hn => h.only n (file_of_close hn), h.later⟩
  | exit child => exact ⟨h.parent, h.only, fun i d hi hd => h.later i d hi (exit_children hd)⟩

theorem Kept.close (h : Kept s k w) (ht : Tidy s) :
    Gone (s.step (.close w)) k (if 2 < w then s.children.length else k + 1) := by
  have hk := (ht.parent k 0 ⟨w, h.parent⟩).1
  refine ⟨fun hholds => ?_, fun i d hi hd => ?_, hk⟩
  · obtain ⟨n, hn⟩ := hholds
    obtain rfl := h.only n (file_of_close hn)
    cases hn.symm.trans ((file_close _ _ _).trans (if_pos rfl))
  · split at hi
    · have hnone : s.children[i]? = none := List.getElem?_eq_none hi
      cases hnone.symm.trans hd
    · next hw => exact fun hholds => hw ((h.later i d hi hd).mp hholds)

theorem Gone.step (h : Gone s k m) (a : Act) : Gone (s.step a) k m := by
  cases a with
  | popen calls rwepipe =>
    obtain ⟨_, hsame⟩ | ⟨v, c, _, _, hstarted⟩ := step_popen s calls rwepipe
    · rwa [hsame]
    · have hk := h.known
      refine ⟨fun hholds => ?_, fun i d hi hd => ?_, by rw [hstarted.length]; omega⟩
      · obtain ⟨n, hn⟩ := hholds
        obtain ⟨_, hnew, _⟩ | hn := hstarted.adds n k 0 hn
        · omega
        · exact h.parent ⟨n, hn⟩
      · obtain ⟨rfl, rfl⟩ | hd := hstarted.child hd
        · rintro ⟨n, hn⟩
          obtain ⟨hnew, _⟩ | ⟨_, hparent⟩ := hstarted.has n k 0 hn
          · omega
          · exact h.parent ⟨n, hparent⟩
        · exact h.later i d hi hd
  | close fd => exact ⟨fun hholds => h.parent (holds_of_close hholds), h.later, h.known⟩
  | exit child =>
    exact ⟨h.parent, fun i d hi hd => h.later i d hi (exit_children hd),
      by simpa [Processes.step] using h.known⟩

/-! ## Runs -/

def Processes.start (t : Table α) : Processes α := ⟨t.map .own, []⟩

theorem run_append (s : Processes α) (acts more : List Act) :
    s.run (acts ++ more) = (s.run acts).run more := List.foldl_append

theorem Tidy.run (ht : Tidy s) (acts : List Act) : Tidy (s.run acts) := by
  induction acts generalizing s with
  | nil => exact ht
  | cons a acts ih => exact ih (ht.step a)

theorem Tidy.start (t : Table α) : Tidy (.start t) := by
  refine ⟨fun k p h => ?_, fun i d hi => ?_, fun i d hi => ?_⟩
  · obtain ⟨n, hn⟩ := h
    obtain ⟨_, _, hown⟩ := Option.map_eq_some_iff.mp hn
    cases hown
  · cases hi
  · cases hi

/-- No child is forgotten, and none comes back. -/
theorem step_children (s : Processes α) (a : Act) :
    s.children.length ≤ (s.step a).children.length ∧
    ∀ i < s.children.length, ∀ c, (s.step a).children[i]? = some (some c) →
      s.children[i]? = some (some c) := by
  cases a with
  | popen calls rwepipe =>
    refine ⟨by simp [Processes.step], fun i hi c hc => ?_⟩
    rwa [Processes.step, List.getElem?_append_left hi] at hc
  | close fd => exact ⟨Nat.le_refl _, fun i _ c hc => hc⟩
  | exit child => exact ⟨by simp [Processes.step], fun i _ c hc => exit_children hc⟩

theorem run_children (s : Processes α) (acts : List Act) :
    s.children.length ≤ (s.run acts).children.length ∧
    ∀ i < s.children.length, ∀ c, (s.run acts).children[i]? = some (some c) →
      s.children[i]? = some (some c) := by
  induction acts generalizing s with
  | nil => exact ⟨Nat.le_refl _, fun i _ c hc => hc⟩
  | cons a acts ih =>
    obtain ⟨hlen, hback⟩ := step_children s a
    obtain ⟨hlen', hback'⟩ := ih (s.step a)
    exact ⟨Nat.le_trans hlen hlen', fun i hi c hc =>
      hback i hi c (hback' i (Nat.lt_of_lt_of_le hi hlen) c hc)⟩

theorem Kept.run (h : Kept s k w) (ht : Tidy s) {acts : List Act} (hnot : .close w ∉ acts) :
    Kept (s.run acts) k w := by
  induction acts generalizing s with
  | nil => exact h
  | cons a acts ih =>
    obtain ⟨hne, hnot⟩ := not_or.mp (mt List.mem_cons.mpr hnot)
    exact ih (h.step ht (Ne.symm hne)) (ht.step a) hnot

theorem Gone.run (h : Gone s k m) (acts : List Act) : Gone (s.run acts) k m := by
  induction acts generalizing s with
  | nil => exact h
  | cons a acts ih => exact ih (h.step a)

/-- Once the process has closed it, the children that have it are among those started before. -/
theorem Kept.closed (h : Kept s k w) (ht : Tidy s) (since rest : List Act) :
    ∃ m, m ≤ (s.run since).children.length ∧ (w ≤ 2 → m = k + 1) ∧
      Gone (s.run (since ++ .close w :: rest)) k m := by
  have hsplit : ∃ before after, since ++ .close w :: rest = before ++ .close w :: after ∧
      .close w ∉ before ∧ before <+: since := by
    by_cases hclose : .close w ∈ since
    · obtain ⟨before, after, rfl, hnot⟩ := List.eq_append_cons_of_mem hclose
      exact ⟨before, after ++ .close w :: rest, by simp, hnot, List.prefix_append _ _⟩
    · exact ⟨since, rest, rfl, hclose, List.prefix_rfl⟩
  obtain ⟨before, after, heq, hnot, more, rfl⟩ := hsplit
  have hkept := h.run ht hnot
  have hgone := hkept.close (ht.run before)
  have hknown : k < (s.run before).children.length := hgone.known
  have hgrows := (run_children (s.run before) more).1
  rw [← run_append] at hgrows
  refine ⟨if 2 < w then (s.run before).children.length else k + 1, ?_,
    fun hw => if_neg (Nat.not_lt.mpr hw), ?_⟩
  · refine Nat.le_trans ?_ hgrows
    split <;> omega
  · rw [heq, run_append]
    exact hgone.run after

/-! ## The end of a pipe -/

/-- **The output of a child ends with the child.** However many children a process has started, and
whatever descriptors it has closed, nobody but the child has the write ends of the pipes it writes
to; so these come to their end exactly when it exits. -/
theorem popen_output_ends_iff (t : Table α) (acts : List Act) {i p : Nat} (hp : p = 1 ∨ p = 2)
    (hi : i < ((Processes.start t).run acts).children.length) :
    (((Processes.start t).run acts).Lacks (.writeEnd i p) ↔
      ((Processes.start t).run acts).children[i]? = some none) ∧
    ¬ Holds ((Processes.start t).run acts).parent (.writeEnd i p) ∧
    ∀ j c, ((Processes.start t).run acts).children[j]? = some (some c) →
      (Holds c (.writeEnd i p) ↔ j = i) := by
  have ht := (Tidy.start t).run acts
  have hparent : ¬ Holds ((Processes.start t).run acts).parent (.writeEnd i p) := fun hholds => by
    have := (ht.parent i p hholds).2
    omega
  have hchild : ∀ j c, ((Processes.start t).run acts).children[j]? = some (some c) →
      (Holds c (.writeEnd i p) ↔ j = i) := by
    refine fun j c hj => ⟨fun hholds => ?_, fun heq => ht.output i c (heq ▸ hj) p hp⟩
    obtain ⟨heq, _⟩ | ⟨_, hzero⟩ := ht.has j c hj i p hholds
    · exact heq.symm
    · omega
  refine ⟨⟨fun hlacks => ?_, fun hexited => ⟨lacks_iff.mpr hparent, fun c hc => ?_⟩⟩, hparent, hchild⟩
  · cases hthere : ((Processes.start t).run acts).children[i] with
    | none => rw [List.getElem?_eq_getElem hi, hthere]
    | some c =>
      have hc : ((Processes.start t).run acts).children[i]? = some (some c) := by
        rw [List.getElem?_eq_getElem hi, hthere]
      exact absurd ((hchild i c hc).mpr rfl)
        (lacks_iff.mp (hlacks.2 c (List.mem_of_getElem? hc)))
  · obtain ⟨j, hj⟩ := List.mem_iff_getElem?.mp hc
    refine lacks_iff.mpr fun hholds => ?_
    obtain rfl := (hchild j c hj).mp hholds
    cases hexited.symm.trans hj

/-- Of two children the first exits; their parent had no standard input when it started them. -/
theorem popen_output_ends_first : ((Processes.start noStdin).run
    [.popen granted #v[0, 0, 0], .popen granted #v[0, 0, 0], .exit 0]).Lacks (.writeEnd 0 1) :=
  (popen_output_ends_iff noStdin _ (.inl rfl) (by decide)).1.mpr rfl

end Mikelibc.Popen
