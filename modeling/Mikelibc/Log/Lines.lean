import Mikelibc.Log.Threads
import Mikelibc.Lib.Pieces

/-! # Lines among threads

A line of a log is printed in pieces: the time, the name of the severity, the text, the
newline are a call of `fprintf` each. All of them are printed with `logging_mutex` locked,
so that no interleaving of threads puts anything of one line into another. -/
namespace Mikelibc.Log
open CSem Linked Pieces

/-! ## Lines -/

theorem toList_loop (b : ByteArray) (i : Nat) (r : List UInt8) :
    ByteArray.toList.loop b i r = r.reverse ++ b.data.toList.drop i := by
  fun_induction ByteArray.toList.loop b i r with
  | case1 i r h ih =>
    have hb : b.get! i = b.data.toList[i] := getElem!_pos b.data i h
    rw [ih, hb, List.reverse_cons, List.append_assoc, List.singleton_append,
      List.getElem_cons_drop]
  | case2 i r h => rw [List.drop_eq_nil_of_le (Nat.not_lt.mp h), List.append_nil]

theorem bytes_eq (s : String) : bytes s = s.toByteArray.data.toList := by
  simp [bytes, ByteArray.toList, toList_loop]

theorem bytes_append (s t : String) : bytes (s ++ t) = bytes s ++ bytes t := by
  simp [bytes_eq]

theorem bytes_newline : bytes "\n" = [10] := by
  rw [bytes_eq]
  rfl

def onStream (f : Stream) : List Event → Text
  | [] => []
  | .print g text :: out => (if g = f then text else []) ++ onStream f out
  | .call _ _ _ _ :: out => onStream f out

/-- Nothing, or text that ends with a newline. -/
def Ended (t : Text) : Prop := t = [] ∨ t.getLast? = some 10

/-- Nothing is left open on any stream. -/
def Lines (out : List Event) : Prop := ∀ f, Ended (onStream f out)

theorem onStream_append (f : Stream) (out out' : List Event) :
    onStream f (out ++ out') = onStream f out ++ onStream f out' := by
  induction out with
  | nil => rfl
  | cons e out ih => cases e <;> simp [onStream, ih]

theorem Ended.append {t u : Text} (ht : Ended t) (hu : Ended u) : Ended (t ++ u) := by
  obtain rfl | hu := hu
  · rwa [List.append_nil]
  · exact .inr (by simp [List.getLast?_append, hu])

theorem Lines.append {out out' : List Event} (h : Lines out) (h' : Lines out') :
    Lines (out ++ out') := fun f => by
  rw [onStream_append]
  exact (h f).append (h' f)

theorem Lines.nil : Lines [] := fun _ => .inl rfl

theorem Lines.flatten {records : List (List Event)} (h : ∀ r ∈ records, Lines r) :
    Lines records.flatten := by
  induction records with
  | nil => exact .nil
  | cons r records ih =>
    rw [List.flatten_cons]
    exact (h r List.mem_cons_self).append (ih fun r' hr => h r' (List.mem_cons_of_mem _ hr))

/-- Text that is printed on one stream, with a newline at its end. -/
theorem Lines.of_newline (f : Stream) (pre : List Event) (hpre : ∀ g ≠ f, onStream g pre = []) :
    Lines (pre ++ [.print f (bytes "\n")]) := fun g => by
  rw [onStream_append, bytes_newline]
  by_cases hg : f = g
  · exact .inr (by simp [onStream, hg])
  · exact .inl (by simp [onStream, hg, hpre g (Ne.symm hg)])

theorem Lines.complaint (f : Stream) (s : String) : Lines [.print f (bytes (s ++ "\n"))] :=
  fun g => by
  rw [bytes_append, bytes_newline]
  by_cases hg : f = g
  · exact .inr (by simp [onStream, hg])
  · exact .inl (by simp [onStream, hg])

/-! ## What is printed with the mutex locked -/

variable {strftime : Bool → String → Text} {fuel : Nat}

theorem writeMessage_lines {logger : Mlog} {severity : LogSeverity} {text : Text}
    {out : List Event} (h : writeMessage strftime logger severity text = .ok out) : Lines out := by
  unfold writeMessage at h
  split at h
  · cases h
  · next f _ =>
    cases h
    have hline := Lines.of_newline f
      ((if logger.logtime = .none then [] else [.print f (strftime (logger.logtime = .utc)
        (timeFormat logger.logtime) ++ bytes " ")]) ++
        (if logger.logtime = .utc then [.print f (bytes "UTC ")] else []) ++
        [.print f (bytes (severityName severity)), .print f text]) fun g hg => by
          have hf : f ≠ g := Ne.symm hg
          simp only [onStream_append]
          split <;> split <;> simp [onStream, hf]
    simpa using hline

theorem vmlogf_lines {logger : Mlog} {severity : LogSeverity} {text : Text} {out : List Event}
    (h : vmlogf strftime logger severity text = .ok out) : Lines out := by
  unfold vmlogf at h
  split at h
  · cases h; exact .nil
  split at h
  · cases h; exact fun _ => .inl rfl
  split at h
  · cases h; exact .nil
  · obtain ⟨message, hmessage, h⟩ := Outcome.bind_eq_ok.mp h
    cases h
    exact (Lines.complaint .stderr "Warning: syslog support not implemented.").append
      (writeMessage_lines hmessage)
  · exact writeMessage_lines h
  · exact writeMessage_lines h
  · exact writeMessage_lines h
  · cases h
    exact .complaint .stderr _

theorem setloggertype_lines {handle : Int} {type : LoggerType} {path : Option String}
    {fopen : Except String Nat} {g g' : Globals} {r : Int} {out : List Event}
    (h : setloggertype fuel handle type path fopen g = .ok (g', r, out)) : Lines out := by
  unfold setloggertype at h
  obtain ⟨logger, _, h⟩ := Outcome.bind_eq_ok.mp h
  split at h
  · obtain ⟨g1, _, h⟩ := Outcome.bind_eq_ok.mp h
    split at h
    · split at h
      · split at h
        · obtain ⟨g2, _, h⟩ := Outcome.bind_eq_ok.mp h
          cases h
          exact .nil
        · obtain ⟨g2, _, h⟩ := Outcome.bind_eq_ok.mp h
          obtain ⟨g3, _, h⟩ := Outcome.bind_eq_ok.mp h
          cases h
          exact .complaint .stderr _
      · cases h
        exact .complaint .stderr "Warning: Requested file logger, but path is NULL"
    · split at h
      all_goals
        obtain ⟨g2, _, h⟩ := Outcome.bind_eq_ok.mp h
        cases h
        exact .nil
  · cases h
    exact .complaint .stderr _

theorem critical_lines {g g' : Globals} {call : MainCall} {freenode : Ptr} {out : List Event}
    (h : critical fuel g call = .ok (g', freenode, out)) : Lines out := by
  cases call with
  | getMlogger newLogger type severity logtime =>
    obtain ⟨⟨g1, r, out'⟩, hget, h⟩ := Outcome.bind_eq_ok.mp h
    cases h
    unfold getMlogger at hget
    obtain ⟨_, _, hget⟩ := Outcome.bind_eq_ok.mp hget
    obtain ⟨_, _, hget⟩ := Outcome.bind_eq_ok.mp hget
    obtain ⟨⟨g2, r2, out2⟩, hset, hget⟩ := Outcome.bind_eq_ok.mp hget
    cases hget
    exact setloggertype_lines hset
  | shutdownMlogger handle =>
    obtain ⟨_, _, h⟩ := Outcome.bind_eq_ok.mp h
    cases h
    exact .nil
  | shutdownAllMloggers =>
    obtain ⟨_, _, h⟩ := Outcome.bind_eq_ok.mp h
    cases h
    exact .nil

/-! ## The mutex -/

def Act.thread : Act → ThreadId
  | .mlogf w _ | .worker w => .worker w
  | .getMlogger _ _ _ _ | .shutdownMlogger _ | .shutdownAllMloggers | .main => .main

structure Locked (s : Threads) : Prop where
  mainHas : s.main.Inside → s.owner = some .main
  workerHas : ∀ w, (s.workers w).Inside → s.owner = some (.worker w)

/-- What `get_mlogger` prints before it locks the mutex. -/
def outOfMemory : Event := .print .stderr (bytes "FATAL: malloc returned NULL\n")

/-- What a step does to the mutex: whoever has it keeps it while the others make steps. What is
printed are lines, of the one who has the mutex and keeps it, or the complaint about `malloc`. -/
structure Fair (s : Threads) (t : ThreadId) (s' : Threads) : Prop where
  locked : Locked s'
  others : ∀ u, s.owner = some u → u ≠ t → s'.owner = some u
  prints : ∃ out, s'.output = s.output ++ out ∧ (out = [] ∨ Lines out ∧ s'.owner = s.owner ∧
    (s.owner = some t ∨ out = [outOfMemory]))

variable {s s' : Threads} {w : Nat}

/-- Nothing changes but where the main thread is, and that not into the critical section. -/
theorem Locked.mainGoes (h : Locked s) {g : Globals} {pc : MainPc} (hout : ¬ pc.Inside) :
    Fair s .main { s with globals := g, main := pc } :=
  ⟨⟨fun hin => absurd hin hout, h.workerHas⟩, fun _ hu _ => hu, [], (List.append_nil _).symm,
    .inl rfl⟩

theorem Locked.refl (h : Locked s) (t : ThreadId) : Fair s t s :=
  ⟨h, fun _ hu _ => hu, [], (List.append_nil _).symm, .inl rfl⟩

theorem Locked.free (h : Locked s) (hfree : s.owner = none) :
    ¬ s.main.Inside ∧ ∀ w, ¬ (s.workers w).Inside := by
  constructor
  · intro hin
    have := h.mainHas hin
    rw [hfree] at this
    cases this
  · intro w hin
    have := h.workerHas w hin
    rw [hfree] at this
    cases this

theorem callGetMlogger_fair (h : Locked s) (malloc : Option (Nat × Cell Mlog)) (type : LoggerType)
    (severity : LogSeverity) (logtime : LogTime) :
    Fair s .main (callGetMlogger malloc type severity logtime s) := by
  unfold callGetMlogger
  split
  · exact ⟨⟨h.mainHas, h.workerHas⟩, fun _ hu _ => hu, [outOfMemory], rfl,
      .inr ⟨.complaint .stderr "FATAL: malloc returned NULL", rfl, .inr rfl⟩⟩
  · split
    · exact h.mainGoes id
    · exact h.refl _

/-- The main thread has the mutex, and lets it go or not. -/
theorem Locked.mainInside (h : Locked s) (hin : s.main.Inside) {g : Globals} {pc : MainPc}
    {owner : Option ThreadId} {out : List Event} (hpc : pc.Inside → owner = some .main)
    (hout : out = [] ∨ Lines out ∧ owner = some .main) :
    Fair s .main ⟨g, owner, pc, s.workers, s.output ++ out⟩ := by
  have hown := h.mainHas hin
  refine ⟨⟨hpc, fun w hw => ?_⟩, fun u hu hne => ?_, out, rfl, ?_⟩
  · have := h.workerHas w hw
    rw [hown] at this
    cases this
  · rw [hown] at hu
    exact absurd (Option.some.inj hu).symm hne
  · obtain hnil | ⟨hlines, howner⟩ := hout
    · exact .inl hnil
    · exact .inr ⟨hlines, howner.trans hown.symm, .inl hown⟩

theorem mainStep_fair (h : Locked s) (hs : mainStep fuel s = .ok s') : Fair s .main s' := by
  obtain ⟨g, owner, main, workers, output⟩ := s
  cases main with
  | idle => cases hs; exact h.refl _
  | lock call =>
    by_cases hfree : owner = none
    · obtain rfl : s' = ⟨g, some .main, .critical call, workers, output⟩ := by
        simpa [mainStep, hfree] using hs.symm
      refine ⟨⟨fun _ => rfl, fun w hw => absurd hw ((h.free hfree).2 w)⟩, fun u hu _ => ?_, [],
        (List.append_nil _).symm, .inl rfl⟩
      cases hfree.symm.trans hu
    · obtain rfl : s' = ⟨g, owner, .lock call, workers, output⟩ := by
        simpa [mainStep, hfree] using hs.symm
      exact h.refl _
  | critical call =>
    obtain ⟨⟨g', freenode, out⟩, hcritical, hs⟩ := Outcome.bind_eq_ok.mp hs
    cases hs
    exact h.mainInside trivial (fun _ => h.mainHas trivial)
      (.inr ⟨critical_lines hcritical, h.mainHas trivial⟩)
  | unlock freenode =>
    have hgo : ∀ pc : MainPc, ¬ pc.Inside → Fair ⟨g, owner, .unlock freenode, workers, output⟩ .main
        ⟨g, none, pc, workers, output ++ []⟩ := fun pc hpc =>
      h.mainInside trivial (fun hin => absurd hin hpc) (.inl rfl)
    simp only [List.append_nil] at hgo
    cases freenode with
    | none => cases hs; exact hgo _ id
    | some a => cases hs; exact hgo _ id
  | free a =>
    obtain ⟨heap, _, hs⟩ := Outcome.bind_eq_ok.mp hs
    cases hs
    exact h.mainGoes id
  | count | default => cases hs; exact h.mainGoes id

theorem Locked.workerGoes (h : Locked s) {pc : WorkerPc} {owner : Option ThreadId}
    {out : List Event} (hmain : s.main.Inside → owner = some .main)
    (hself : pc.Inside → owner = some (.worker w))
    (hothers : ∀ u, s.owner = some u → u ≠ .worker w → owner = some u)
    (hout : out = [] ∨ Lines out ∧ s.owner = some (.worker w) ∧ owner = s.owner) :
    Fair s (.worker w) { s.setWorker w pc with owner := owner, output := s.output ++ out } := by
  refine ⟨⟨hmain, fun u hu => ?_⟩, hothers, out, rfl, ?_⟩
  · by_cases hne : u = w
    · subst hne
      exact hself (by simpa using hu)
    · refine hothers _ (h.workerHas u (by simpa [Threads.setWorker, hne] using hu)) fun he => ?_
      exact hne (ThreadId.worker.inj he)
  · obtain hnil | ⟨hlines, hown, hsame⟩ := hout
    · exact .inl hnil
    · exact .inr ⟨hlines, hsame, .inl hown⟩

theorem Locked.workerStays (h : Locked s) {pc : WorkerPc}
    (hself : pc.Inside → s.owner = some (.worker w)) : Fair s (.worker w) (s.setWorker w pc) := by
  have hfair : Fair s (.worker w) { s.setWorker w pc with
      owner := s.owner, output := s.output ++ [] } :=
    h.workerGoes h.mainHas hself (fun _ hu _ => hu) (.inl rfl)
  rwa [List.append_nil] at hfair

theorem workerStep_fair (h : Locked s) (hs : workerStep strftime w s = .ok s') :
    Fair s (.worker w) s' := by
  cases hpc : s.workers w with
  | idle =>
    obtain rfl : s' = s := by simpa [workerStep, hpc] using hs.symm
    exact h.refl _
  | lock m =>
    by_cases hfree : s.owner = none
    · obtain rfl := Outcome.ok.inj ((workerStep_lock hpc hfree).symm.trans hs)
      have hfair : Fair s (.worker w) { s.setWorker w (.find m s.globals s.globals.mloggers) with
          owner := some (.worker w), output := s.output ++ [] } :=
        h.workerGoes (fun hin => absurd hin (h.free hfree).1) (fun _ => rfl)
          (fun u hu _ => by cases hfree.symm.trans hu) (.inl rfl)
      rwa [List.append_nil] at hfair
    · obtain rfl : s' = s := by simpa [workerStep, hpc, hfree] using hs.symm
      exact h.refl _
  | find m taken current =>
    have hown : s.owner = some (.worker w) := h.workerHas w (by rw [hpc]; trivial)
    simp only [workerStep, hpc] at hs
    obtain ⟨found, _, hs⟩ := Outcome.bind_eq_ok.mp hs
    split at hs
    · obtain ⟨v, _, hs⟩ := Outcome.bind_eq_ok.mp hs
      cases hs
      exact h.workerStays fun _ => hown
    · cases hs
      exact h.workerStays fun _ => hown
  | log m taken logger =>
    have hown : s.owner = some (.worker w) := h.workerHas w (by rw [hpc]; trivial)
    have hgo : ∀ out, Lines out → Fair s (.worker w) ((s.print out).setWorker w .unlock) :=
      fun out hout => h.workerGoes h.mainHas (fun _ => hown) (fun _ hu _ => hu)
        (.inr ⟨hout, hown, rfl⟩)
    simp only [workerStep, hpc] at hs
    split at hs
    · obtain ⟨node, _, hs⟩ := Outcome.bind_eq_ok.mp hs
      obtain ⟨out, hout, hs⟩ := Outcome.bind_eq_ok.mp hs
      cases hs
      exact hgo out (vmlogf_lines hout)
    · cases hs
      exact hgo _ (.complaint .stderr _)
  | unlock =>
    have hown : s.owner = some (.worker w) := h.workerHas w (by rw [hpc]; trivial)
    obtain rfl := Outcome.ok.inj ((workerStep_unlock hpc).symm.trans hs)
    have hfair : Fair s (.worker w) { s.setWorker w .idle with
        owner := none, output := s.output ++ [] } := by
      refine h.workerGoes (fun hin => ?_) (fun hin => hin.elim) (fun u hu hne => ?_) (.inl rfl)
      · cases hown.symm.trans (h.mainHas hin)
      · exact absurd (Option.some.inj (hu.symm.trans hown)) hne
    rwa [List.append_nil] at hfair

theorem threadStep_fair (h : Locked s) {a : Act} {r : Unit}
    (hs : threadStep strftime fuel s a = .ok (s', r)) : Fair s a.thread s' := by
  cases a with
  | getMlogger malloc type severity logtime =>
    cases hs
    split
    · exact callGetMlogger_fair h malloc type severity logtime
    · exact h.refl _
  | shutdownMlogger handle | shutdownAllMloggers =>
    cases hs
    split
    · exact h.mainGoes id
    · exact h.refl _
  | mlogf v m =>
    cases hs
    split
    · split
      · exact h.refl _
      · exact h.workerStays fun hin => hin.elim
    · exact h.refl _
  | main =>
    obtain ⟨t, ht, hs⟩ := Outcome.bind_eq_ok.mp hs
    cases hs
    exact mainStep_fair h ht
  | worker v =>
    obtain ⟨t, ht, hs⟩ := Outcome.bind_eq_ok.mp hs
    cases hs
    exact workerStep_fair h ht

/-! ## Printing in pieces -/

structure Piece where
  locked : Bool
  event : Event

def printingStep (strftime : Bool → String → Text) (fuel : Nat) (s : Threads) (a : Act) :
    Outcome (Threads × List Piece) := do
  let (s', _) ← threadStep strftime fuel s a
  return (s', (s'.output.drop s.output.length).map (Piece.mk (s.owner = some a.thread)))

/-- The threads of `mlog.c`, which print one piece at a time. -/
def printer (strftime : Bool → String → Text) (fuel : Nat) : System ThreadId Threads Act Piece :=
  ⟨Act.thread, printingStep strftime fuel⟩

theorem printingStep_spec (h : Locked s) {a : Act} {record : List Piece}
    (hs : printingStep strftime fuel s a = .ok (s', record)) :
    threadStep strftime fuel s a = .ok (s', ()) ∧ Fair s a.thread s' ∧
      ∃ out, s'.output = s.output ++ out ∧
        record = out.map (Piece.mk (s.owner = some a.thread)) ∧
        (out = [] ∨ Lines out ∧ s'.owner = s.owner ∧
          (s.owner = some a.thread ∨ out = [outOfMemory])) := by
  obtain ⟨⟨t, u⟩, ht, hs⟩ := Outcome.bind_eq_ok.mp hs
  cases hs
  have hfair := threadStep_fair h ht
  obtain ⟨out, hout, hprints⟩ := hfair.prints
  exact ⟨ht, hfair, out, hout, by simp [hout], hprints⟩

/-- Only who has the mutex prints, but for the complaint about `malloc`. -/
theorem printer_guarded (strftime : Bool → String → Text) (fuel : Nat) :
    Guarded (printer strftime fuel) Locked Threads.owner Piece.locked where
  keeps := fun h hs => (printingStep_spec h hs).2.1.locked
  holds := fun h hs hown hne => (printingStep_spec h hs).2.1.others _ hown hne
  prints := by
    intro s a s' record h hs hsome
    obtain ⟨_, _, out, _, rfl, hout⟩ := printingStep_spec h hs
    have hown : s.owner = some a.thread := by
      by_contra hnot
      exact hsome (by simp [hnot])
    obtain rfl | ⟨_, hsame, _⟩ := hout
    · exact absurd rfl hsome
    · exact ⟨hown, hsame.trans hown⟩

/-- A line as it is printed, with the mutex locked or without it. -/
def IsLine (record : List Piece) : Prop :=
  Lines (record.map Piece.event) ∧ Lines ((record.filter Piece.locked).map Piece.event)

theorem printingStep_line (h : Locked s) {a : Act} {record : List Piece}
    (hs : printingStep strftime fuel s a = .ok (s', record)) : IsLine record := by
  obtain ⟨_, _, out, _, rfl, hout⟩ := printingStep_spec h hs
  have hlines : Lines out := by
    obtain rfl | ⟨hlines, _⟩ := hout
    · exact .nil
    · exact hlines
  have hevents : (out.map (Piece.mk (s.owner = some a.thread))).map Piece.event = out := by
    simp [Function.comp_def]
  refine ⟨by rwa [hevents], ?_⟩
  by_cases hown : s.owner = some a.thread
  · rw [List.filter_eq_self.mpr (by simp [hown]), hevents]
    exact hlines
  · rw [List.filter_eq_nil_iff.mpr (by simp [hown])]
    exact .nil

/-- A run with its records is a run of the threads, and prints them. -/
theorem printingStep_run : ∀ {acts : List Act} {s t : Threads} {records : List (List Piece)},
    Locked s → runOps (printingStep strftime fuel) s acts = .ok (t, records) →
    (∃ us, runOps (threadStep strftime fuel) s acts = .ok (t, us)) ∧
      t.output = s.output ++ records.flatten.map Piece.event ∧ ∀ r ∈ records, IsLine r := by
  intro acts
  induction acts with
  | nil =>
    intro s t records _ hrun
    cases hrun
    exact ⟨⟨[], rfl⟩, by simp, fun r hr => by cases hr⟩
  | cons a acts ih =>
    intro s t records h hrun
    obtain ⟨⟨s', record⟩, hs, hrun⟩ := Outcome.bind_eq_ok.mp hrun
    obtain ⟨⟨t', records'⟩, ht, hrun⟩ := Outcome.bind_eq_ok.mp hrun
    cases hrun
    have hline := printingStep_line h hs
    obtain ⟨hstep, hfair, out, hout, rfl, _⟩ := printingStep_spec h hs
    obtain ⟨⟨us, hus⟩, houtput, hlines⟩ := ih hfair.locked ht
    refine ⟨⟨() :: us, by simp [runOps, hstep, hus]⟩, ?_, fun r hr => ?_⟩
    · rw [houtput, hout]
      simp [Function.comp_def]
    · obtain rfl | hr := List.mem_cons.mp hr
      · exact hline
      · exact hlines r hr

/-- **Lines come out whole.** In every interleaving of the calls of `fprintf` that any number of
workers and the main thread make, what has been printed with the mutex locked are the lines of a run
in which every thread prints its line in one step, but for what its holder has still to print of
the last; when there is nothing left of it, no stream is left with an open line. Nothing but the
complaint about `malloc` is printed without the mutex. -/
theorem mlogf_lines_whole (strftime : Bool → String → Text) (fuel : Nat) (acts : List Act)
    {p : Printing ThreadId Threads Piece} {us : List Unit}
    (hrun : runOps (printer strftime fuel).piece (.start .start) acts = .ok (p, us)) :
    (∃ large records, large.Sublist acts ∧
      (∃ us', runOps (threadStep strftime fuel) .start large = .ok (p.state, us')) ∧
      p.state.output = records.flatten.map Piece.event ∧
      (∀ r ∈ records, Lines (r.map Piece.event)) ∧
      Printed Piece.locked records (p.printed.filter Piece.locked)
        (p.left Threads.owner Piece.locked)) ∧
    (p.left Threads.owner Piece.locked = [] →
      Lines ((p.printed.filter Piece.locked).map Piece.event)) ∧
    ∀ e ∈ p.printed, e.locked = false → e.event = outOfMemory := by
  have hg := printer_guarded strftime fuel
  have hstart : Locked .start := ⟨fun hin => hin.elim, fun _ hin => hin.elim⟩
  obtain ⟨large, records, hsub, hlarge, hprinted⟩ := hg.records_whole hstart hrun
  obtain ⟨hthreads, houtput, hlines⟩ := printingStep_run hstart hlarge
  refine ⟨⟨large, records, hsub, hthreads, houtput, fun r hr => (hlines r hr).1, hprinted⟩, ?_, ?_⟩
  · intro hleft
    have hall := hprinted.flatten
    rw [hleft, List.append_nil, List.filter_flatten] at hall
    rw [hall, List.map_flatten, List.map_map]
    refine .flatten fun r hr => ?_
    obtain ⟨r', hr', rfl⟩ := List.mem_map.mp hr
    exact (hlines r' hr').2
  · refine hg.forall_printed ?_ hstart (fun _ _ he => by cases he) (fun _ he => by cases he) hrun
    intro s a s' record h hs e he hunlocked
    obtain ⟨_, _, out, _, rfl, hout⟩ := printingStep_spec h hs
    obtain ⟨event, hevent, rfl⟩ := List.mem_map.mp he
    obtain rfl | ⟨_, _, hown | rfl⟩ := hout
    · cases hevent
    · simp [hown] at hunlocked
    · exact List.mem_singleton.mp hevent

/-- One worker waits for the mutex while the other one prints its line piece by piece. -/
theorem mlogf_lines_whole_interleaved : ∃ (p : Printing ThreadId Threads Piece) (us : List Unit),
    runOps (printer (fun _ _ => []) 20).piece (.start .start)
      ([.getMlogger (some (0, ⟨freshLogger .none .trace .none 7, none⟩)) .stdout .info .none,
        .main, .main, .main, .mlogf 5 ⟨0, .error, [104]⟩, .mlogf 6 ⟨0, .info, [105]⟩,
        .worker 5, .worker 5, .worker 5, .worker 5, .worker 6, .worker 5, .worker 6, .worker 5,
        .worker 5, .worker 6, .worker 6, .worker 6, .worker 6, .worker 6, .worker 6]) =
        .ok (p, us) ∧
      p.printed.map Piece.locked = [true, true, true, true, true, true] ∧
      Lines ((p.printed.filter Piece.locked).map Piece.event) := by
  obtain ⟨⟨p, us⟩, hrun, hp⟩ := Outcome.any_eq_true.mp (by decide +kernel :
    ((runOps (printer (fun _ _ => []) 20).piece (.start .start)
      ([.getMlogger (some (0, ⟨freshLogger .none .trace .none 7, none⟩)) .stdout .info .none,
        .main, .main, .main, .mlogf 5 ⟨0, .error, [104]⟩, .mlogf 6 ⟨0, .info, [105]⟩,
        .worker 5, .worker 5, .worker 5, .worker 5, .worker 6, .worker 5, .worker 6, .worker 5,
        .worker 5, .worker 6, .worker 6, .worker 6, .worker 6, .worker 6, .worker 6])).any
      fun q => decide (q.1.printed.map Piece.locked = [true, true, true, true, true, true]) &&
        (q.1.left Threads.owner Piece.locked).isEmpty) = true)
  obtain ⟨hprinted, hleft⟩ := Bool.and_eq_true_iff.mp hp
  exact ⟨p, us, hrun, of_decide_eq_true hprinted,
    (mlogf_lines_whole _ _ _ hrun).2.1 (List.isEmpty_iff.mp hleft)⟩

end Mikelibc.Log
