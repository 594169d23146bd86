import Mikelibc.Lib.Pieces

/-! # `dbg_printf` of `mdebug.c`, built with `MIKELIBC_THREADS`

Three calls of `fprintf` print a message on `stderr`, and `mdebug_mutex` is locked around them.
Any number of threads make their calls one after the other; what comes out is one message after
the other, in the order of each thread. -/
namespace Mikelibc.Debug
open CSem Pieces

/-! ## The code -/

/-- The arguments of a call; the values are in the text already. -/
structure Message where
  fname : String
  lineno : Int
  text : String
  deriving DecidableEq

/-- Where a thread is: between two calls, before `pthread_mutex_lock`, behind it, or before
`pthread_mutex_unlock`. -/
inductive Pc where
  | outside
  | lock (m : Message)
  | print (m : Message)
  | unlock

/-- The calls that a thread has not begun are in `calls`. -/
structure Threads (τ : Type) where
  owner : Option τ
  pc : τ → Pc
  calls : τ → List Message

def Threads.start {τ : Type} (prog : τ → List Message) : Threads τ := ⟨none, fun _ => .outside, prog⟩

/-- A message as it is printed: by whom, and when. -/
structure Entry (τ : Type) where
  thread : τ
  ts : String
  message : Message
  deriving DecidableEq

variable {τ : Type}

/-- What the three calls print; `tid` is `syscall(SYS_gettid)`. -/
def Entry.pieces (tid : τ → Int) (e : Entry τ) : List String :=
  [e.ts ++ " [" ++ toString (tid e.thread) ++ "] [DEBUG] ",
    "[" ++ e.message.fname ++ ":" ++ toString e.message.lineno ++ "] ",
    e.message.text]

variable [DecidableEq τ]

def Threads.setPc (s : Threads τ) (t : τ) (pc : Pc) : Threads τ :=
  { s with pc := Function.update s.pc t pc }

/-- A step of a thread, at a time that `strftime` prints as `ts`: who waits for the mutex stays
where it is until the mutex is free. -/
def step (tid : τ → Int) (s : Threads τ) : τ × String → Outcome (Threads τ × List String)
  | (t, ts) => return match s.pc t with
    | .outside => match s.calls t with
      | [] => (s, [])
      | m :: ms => ({ s.setPc t (.lock m) with calls := Function.update s.calls t ms }, [])
    | .lock m =>
      if s.owner = none then ({ s.setPc t (.print m) with owner := some t }, []) else (s, [])
    | .print m => (s.setPc t .unlock, Entry.pieces tid ⟨t, ts, m⟩)
    | .unlock => ({ s.setPc t .outside with owner := none }, [])

def printer (tid : τ → Int) : System τ (Threads τ) (τ × String) String := ⟨Prod.fst, step tid⟩

/-! ## Who has the mutex -/

/-- A thread between `pthread_mutex_lock` and `pthread_mutex_unlock`. -/
def Pc.Inside : Pc → Prop
  | .print _ | .unlock => True
  | .outside | .lock _ => False

/-- Only the owner of the mutex is inside. -/
def Locked (s : Threads τ) : Prop := ∀ t, (s.pc t).Inside → s.owner = some t

/-- What a step does: where the thread is before it and after it, and what that makes of the mutex,
of the calls and of the output. -/
inductive Goes (tid : τ → Int) (s : Threads τ) (t : τ) : Threads τ → List String → Prop
  | stays : Goes tid s t s []
  | call (m ms) (hpc : s.pc t = .outside) (hcalls : s.calls t = m :: ms) :
    Goes tid s t { s.setPc t (.lock m) with calls := Function.update s.calls t ms } []
  | lock (m) (hpc : s.pc t = .lock m) (hfree : s.owner = none) :
    Goes tid s t { s.setPc t (.print m) with owner := some t } []
  | print (m ts) (hpc : s.pc t = .print m) :
    Goes tid s t (s.setPc t .unlock) (Entry.pieces tid ⟨t, ts, m⟩)
  | unlock (hpc : s.pc t = .unlock) : Goes tid s t { s.setPc t .outside with owner := none } []

variable {tid : τ → Int} {s s' : Threads τ} {t : τ} {record : List String}

theorem step_goes {ts : String} (h : step tid s (t, ts) = .ok (s', record)) :
    Goes tid s t s' record := by
  unfold step at h
  simp only [Outcome.pure_eq, Outcome.ok.injEq] at h
  split at h
  · next hpc =>
    split at h
    · cases h; exact .stays
    · next m ms hcalls => cases h; exact .call m ms hpc hcalls
  · next m hpc =>
    split at h
    · next hfree => cases h; exact .lock m hpc hfree
    · cases h; exact .stays
  · next m hpc => cases h; exact .print m ts hpc
  · next hpc => cases h; exact .unlock hpc

theorem setPc_pc (s : Threads τ) (t u : τ) (pc : Pc) :
    (s.setPc t pc).pc u = if u = t then pc else s.pc u := by
  simp [Threads.setPc, Function.update_apply]

theorem Goes.locked (h : Locked s) (hgoes : Goes tid s t s' record) : Locked s' := by
  cases hgoes with
  | stays => exact h
  | call m ms hpc hcalls =>
    intro u hu
    simp only [setPc_pc] at hu
    split at hu
    · exact hu.elim
    · exact h u hu
  | lock m hpc hfree =>
    intro u hu
    simp only [setPc_pc] at hu
    split at hu
    · next heq => exact congrArg some heq.symm
    · rw [h u hu] at hfree
      cases hfree
  | print m ts hpc =>
    intro u hu
    simp only [setPc_pc] at hu
    split at hu
    · next heq => exact heq ▸ h t (by rw [hpc]; trivial)
    · exact h u hu
  | unlock hpc =>
    -- only the thread itself was inside
    intro u hu
    have hown := h t (by rw [hpc]; trivial)
    simp only [setPc_pc] at hu
    split at hu
    · exact hu.elim
    · next hne =>
      rw [h u hu] at hown
      exact absurd (Option.some.inj hown) hne

theorem printer_guarded (tid : τ → Int) :
    Guarded (printer tid) Locked Threads.owner fun _ => true where
  keeps := fun h hs => (step_goes hs).locked h
  prints := by
    intro s a s' record h hs hsome
    have hown : (s.pc a.1).Inside → s.owner = some a.1 := h a.1
    cases step_goes hs with
    | stays | call | lock | unlock => exact absurd rfl hsome
    | print m ts hpc =>
      have howner := hown (by rw [hpc]; trivial)
      exact ⟨howner, howner⟩
  holds := by
    intro s a s' record t h hs howner hne
    cases step_goes hs with
    | stays | call | print => exact howner
    | lock m hpc hfree => exact absurd (hfree.symm.trans howner) nofun
    | unlock hpc =>
      have hown := h a.1 (by rw [hpc]; trivial)
      rw [howner] at hown
      exact absurd (Option.some.inj hown) hne

/-! ## The messages of a thread -/

def Pc.message : Pc → List Message
  | .lock m | .print m => [m]
  | .outside | .unlock => []

/-- What a thread has still to print of all its messages, as far as it has not begun. -/
def Threads.todo (s : Threads τ) (t : τ) : List Message := (s.pc t).message ++ s.calls t

def messagesOf (t : τ) (entries : List (Entry τ)) : List Message :=
  (entries.filter (·.thread = t)).map Entry.message

/-- A step prints the next message of its thread, or nothing. -/
theorem Goes.entry (hgoes : Goes tid s t s' record) :
    ∃ entries, (if record.isEmpty then [] else [record]) = entries.map (Entry.pieces tid) ∧
      ∀ u, messagesOf u entries ++ s'.todo u = s.todo u := by
  cases hgoes with
  | stays => exact ⟨[], rfl, fun u => rfl⟩
  | call m ms hpc hcalls =>
    refine ⟨[], rfl, fun u => ?_⟩
    by_cases hu : u = t
    · subst hu
      simp [messagesOf, Threads.todo, Threads.setPc, hpc, hcalls, Pc.message]
    · simp [messagesOf, Threads.todo, Threads.setPc, hu]
  | lock m hpc hfree =>
    refine ⟨[], rfl, fun u => ?_⟩
    by_cases hu : u = t
    · subst hu
      simp [messagesOf, Threads.todo, Threads.setPc, hpc, Pc.message]
    · simp [messagesOf, Threads.todo, Threads.setPc, hu]
  | print m ts hpc =>
    refine ⟨[⟨t, ts, m⟩], rfl, fun u => ?_⟩
    by_cases hu : u = t
    · subst hu
      simp [messagesOf, Threads.todo, Threads.setPc, hpc, Pc.message]
    · simp [messagesOf, Threads.todo, Threads.setPc, hu, Ne.symm hu]
  | unlock hpc =>
    refine ⟨[], rfl, fun u => ?_⟩
    by_cases hu : u = t
    · subst hu
      simp [messagesOf, Threads.todo, Threads.setPc, hpc, Pc.message]
    · simp [messagesOf, Threads.todo, Threads.setPc, hu]

theorem messagesOf_append (t : τ) (entries entries' : List (Entry τ)) :
    messagesOf t (entries ++ entries') = messagesOf t entries ++ messagesOf t entries' := by
  simp [messagesOf]

/-- A run with large steps prints messages of all threads, of each in its order. -/
theorem run_entries : ∀ {acts : List (τ × String)} {s s' : Threads τ} {records : List (List String)},
    runOps (step tid) s acts = .ok (s', records) →
    ∃ entries, records.filter (fun record => !record.isEmpty) = entries.map (Entry.pieces tid) ∧
      ∀ u, messagesOf u entries ++ s'.todo u = s.todo u := by
  intro acts
  induction acts with
  | nil => intro s s' records hrun; cases hrun; exact ⟨[], rfl, fun u => rfl⟩
  | cons a acts ih =>
    intro s s' records hrun
    obtain ⟨⟨t, record⟩, ht, hrun⟩ := Outcome.bind_eq_ok.mp hrun
    obtain ⟨⟨t', records'⟩, ht', hrun⟩ := Outcome.bind_eq_ok.mp hrun
    cases hrun
    obtain ⟨first, hfirst, hbefore⟩ := (step_goes ht).entry
    obtain ⟨entries, hentries, hafter⟩ := ih ht'
    refine ⟨first ++ entries, ?_, fun u => ?_⟩
    · rw [List.map_append, ← hfirst, ← hentries, List.filter_cons]
      cases record <;> rfl
    · rw [messagesOf_append, List.append_assoc, hafter, hbefore]

/-- **Debug messages come out whole.** In every interleaving of the calls of `fprintf` of any number
of threads, `stderr` has one message after the other, but for what the owner of the mutex has still
to print of the last; and the messages of each thread in the order of its calls, but for those that
it has still to print. -/
theorem dbgPrintf_messages_whole (tid : τ → Int) (prog : τ → List Message)
    {acts : List (τ × String)} {p : Printing τ (Threads τ) String} {us : List Unit}
    (hrun : runOps (printer tid).piece (.start (.start prog)) acts = .ok (p, us)) :
    ∃ entries, Printed (fun _ => true) (entries.map (Entry.pieces tid)) p.printed
        (p.left Threads.owner fun _ => true) ∧
      ∀ t, messagesOf t entries ++ p.state.todo t = prog t := by
  have hstart : Locked (.start prog) := fun _ hin => hin.elim
  obtain ⟨large, records, _, hlarge, hprinted⟩ := (printer_guarded tid).records_whole hstart hrun
  obtain ⟨entries, hentries, horder⟩ := run_entries hlarge
  rw [List.filter_true] at hprinted
  exact ⟨entries, hentries ▸ hprinted.compact, horder⟩

def twoCalls (t : Bool) : List Message := if t then [⟨"b.c", 2, "two"⟩] else [⟨"a.c", 1, "one"⟩]

/-- The second one waits for the mutex while the first one prints. -/
def twoSteps : List (Bool × String) :=
  [(false, ""), (true, ""), (false, ""), (false, "noon"), (true, ""), (false, ""), (true, ""),
    (false, ""), (false, ""), (true, ""), (false, ""), (true, ""), (true, "one"), (true, ""),
    (true, "")]

theorem dbgPrintf_messages_whole_two : ∃ (p : Printing Bool (Threads Bool) String) (us : List Unit),
    runOps (printer Bool.toInt).piece (.start (.start twoCalls)) twoSteps = .ok (p, us) ∧
      p.printed = ["noon [0] [DEBUG] ", "[a.c:1] ", "one", "one [1] [DEBUG] ", "[b.c:2] "] ∧
      ∃ entries, Printed (fun _ => true) (entries.map (Entry.pieces Bool.toInt)) p.printed
        (p.left Threads.owner fun _ => true) ∧
        ∀ t, messagesOf t entries ++ p.state.todo t = twoCalls t := by
  obtain ⟨⟨p, us⟩, hrun, hp⟩ := Outcome.any_eq_true.mp (by decide +kernel :
    (runOps (printer Bool.toInt).piece (.start (.start twoCalls)) twoSteps).any (fun q => decide
      (q.1.printed = ["noon [0] [DEBUG] ", "[a.c:1] ", "one", "one [1] [DEBUG] ", "[b.c:2] "])) =
      true)
  exact ⟨p, us, hrun, of_decide_eq_true hp, dbgPrintf_messages_whole _ _ hrun⟩

end Mikelibc.Debug
