import Mikelibc.Log.Abort

/-! # The loggers among threads

Built with threads, `get_mlogger`, `shutdown_mlogger`, `shutdown_all_mloggers` and
`mlogf` lock `logging_mutex`. One main thread calls the first three: what each does
with the mutex locked is one step, what it does before and after it are steps of
their own. Any number of workers call `mlogf`, which goes through the list node by
node. A thread whose next step is to lock waits while another one has the mutex. -/
namespace Mikelibc.Log
open CSem Linked

/-! ## The threads -/

/-- A call of the main thread; for a new logger, with the memory that `malloc` has returned. -/
inductive MainCall where
  | getMlogger (newLogger : Nat) (loggertype : LoggerType) (severity : LogSeverity)
      (logtime : LogTime)
  | shutdownMlogger (handle : Int)
  | shutdownAllMloggers

/-- What the main thread does next: lock the mutex, what the call does with it, unlock it; and
for a logger that has been unlinked free the node, take it off the counter and look at the counter
for `g_handle`. -/
inductive MainPc where
  | idle
  | lock (call : MainCall)
  | critical (call : MainCall)
  | unlock (freenode : Ptr)
  | free (freenode : Nat)
  | count
  | default

structure Message where
  handle : Int
  severity : LogSeverity
  text : Text

/-- What a worker does next in `mlogf`: lock the mutex, look at the node `current`, log through
the logger found, unlock the mutex. It is remembered what the list was like when the mutex was
locked. -/
inductive WorkerPc where
  | idle
  | lock (m : Message)
  | find (m : Message) (taken : Globals) (current : Ptr)
  | log (m : Message) (taken : Globals) (logger : Ptr)
  | unlock

inductive ThreadId where
  | main
  | worker (w : Nat)
  deriving DecidableEq

/-- The globals, who has the mutex, where the threads are, and what they have printed. -/
structure Threads where
  globals : Globals
  owner : Option ThreadId
  main : MainPc
  workers : Nat → WorkerPc
  output : List Event

def Threads.start : Threads := ⟨.start, none, .idle, fun _ => .idle, []⟩

inductive Act where
  | getMlogger (malloc : Option (Nat × Cell Mlog)) (loggertype : LoggerType)
      (severity : LogSeverity) (logtime : LogTime)
  | shutdownMlogger (handle : Int)
  | shutdownAllMloggers
  | main
  | mlogf (w : Nat) (m : Message)
  | worker (w : Nat)

/-! ## The steps -/

def Threads.print (s : Threads) (out : List Event) : Threads := { s with output := s.output ++ out }

def Threads.setWorker (s : Threads) (w : Nat) (pc : WorkerPc) : Threads :=
  { s with workers := Function.update s.workers w pc }

variable (strftime : Bool → String → Text) (fuel : Nat)

/-- `get_mlogger` up to its lock: `malloc` returns memory that is not in use, with something in it,
or `NULL`. -/
def callGetMlogger (malloc : Option (Nat × Cell Mlog)) (loggertype : LoggerType)
    (severity : LogSeverity) (logtime : LogTime) (s : Threads) : Threads :=
  match malloc with
  | none => s.print [.print .stderr (bytes "FATAL: malloc returned NULL\n")]
  | some (a, garbage) =>
    if s.globals.heap a = none then { s with
      globals := { s.globals with heap := Function.update s.globals.heap a (some garbage) }
      main := .lock (.getMlogger a loggertype severity logtime) }
    else s

/-- With the mutex locked; the node that is left to be freed. -/
def critical (g : Globals) : MainCall → Outcome (Globals × Ptr × List Event)
  | .getMlogger newLogger loggertype severity logtime => do
    let (g, _, out) ← getMlogger fuel (some newLogger) loggertype severity logtime g
    return (g, none, out)
  | .shutdownMlogger handle => do
    let v ← mlinkedListRemove mloggerCheck fuel handle g.vars
    return ({ g with heap := v.heap, mloggers := v.start }, v.freenode, [])
  | .shutdownAllMloggers => do
    let g ← shutdownAllMloggers fuel g
    return (g, none, [])

def mainStep (s : Threads) : Outcome Threads :=
  let g := s.globals
  match s.main with
  | .idle => return s
  | .lock call =>
    return if s.owner = none then { s with owner := some .main, main := .critical call } else s
  | .critical call => do
    let (g, freenode, out) ← critical fuel g call
    return { s.print out with globals := g, main := .unlock freenode }
  | .unlock none => return { s with owner := none, main := .idle }
  | .unlock (some freenode) => return { s with owner := none, main := .free freenode }
  | .free freenode => do
    let heap ← freeNode (some freenode) g.heap
    return { s with globals := { g with heap := heap }, main := .count }
  | .count => return { s with globals := { g with nloggers := g.nloggers - 1 }, main := .default }
  | .default =>
    return { s with
      globals := { g with gHandle := if g.nloggers = 0 then -1 else g.gHandle }, main := .idle }

def workerStep (w : Nat) (s : Threads) : Outcome Threads :=
  let g := s.globals
  match s.workers w with
  | .idle => return s
  | .lock m =>
    return if s.owner = none then
      { s.setWorker w (.find m g g.mloggers) with owner := some (.worker w) } else s
  | .find m taken current => do
    let v := { g.vars with current := current }
    if ← findCond mloggerCheck m.handle v then
      let v ← advance v
      return s.setWorker w (.find m taken v.current)
    else return s.setWorker w (.log m taken current)
  | .log m _ logger =>
    if logger ≠ none then do
      let node ← g.heap.load logger
      let out ← vmlogf strftime node.payload m.severity m.text
      return (s.print out).setWorker w .unlock
    else
      return (s.print [.print .stderr (bytes ("Bad logging handle: " ++ toString m.handle ++
        "\n"))]).setWorker w .unlock
  | .unlock => return { s.setWorker w .idle with owner := none }

/-- One step of some thread; a call is made by a thread that is in none. -/
def threadStep (s : Threads) : Act → Outcome (Threads × Unit)
  | .getMlogger malloc loggertype severity logtime => return (match s.main with
    | .idle => callGetMlogger malloc loggertype severity logtime s
    | _ => s, ())
  | .shutdownMlogger handle => return (match s.main with
    | .idle => { s with main := .lock (.shutdownMlogger handle) }
    | _ => s, ())
  | .shutdownAllMloggers => return (match s.main with
    | .idle => { s with main := .lock .shutdownAllMloggers }
    | _ => s, ())
  | .mlogf w m => return (match s.workers w with
    | .idle => if m.handle < 0 then s else s.setWorker w (.lock m)
    | _ => s, ())
  | .main => do
    let s ← mainStep fuel s
    return (s, ())
  | .worker w => do
    let s ← workerStep strftime w s
    return (s, ())

/-- The steps of one thread while no other thread makes one. -/
def alone (step : Threads → Outcome Threads) : Nat → Threads → Outcome Threads
  | 0, s => return s
  | k + 1, s => do
    let s ← step s
    alone step k s

@[simp] theorem setWorker_workers (s : Threads) (w : Nat) (pc : WorkerPc) :
    (s.setWorker w pc).workers w = pc := by
  simp [Threads.setWorker]

@[simp] theorem setWorker_setWorker (s : Threads) (w : Nat) (pc pc' : WorkerPc) :
    (s.setWorker w pc).setWorker w pc' = s.setWorker w pc' := by
  simp [Threads.setWorker]

/-! ## The invariant -/

def MainPc.Inside : MainPc → Prop
  | .critical _ | .unlock _ => True
  | _ => False

def WorkerPc.Inside : WorkerPc → Prop
  | .find _ _ _ | .log _ _ _ | .unlock => True
  | _ => False

def MainPc.Frees (a : Nat) : MainPc → Prop
  | .unlock freenode => freenode = some a
  | .free freenode => freenode = a
  | _ => False

instance (a : Nat) : (pc : MainPc) → Decidable (pc.Frees a)
  | .unlock _ | .free _ => inferInstanceAs (Decidable (_ = _))
  | .idle | .lock _ | .critical _ | .count | .default => inferInstanceAs (Decidable False)

def MainPc.Creates (a : Nat) : MainPc → Prop
  | .lock (.getMlogger newLogger _ _ _) | .critical (.getMlogger newLogger _ _ _) => newLogger = a
  | _ => False

/-- The main thread is about to give a handle out. -/
def MainPc.Issues : MainPc → Prop
  | .critical (.getMlogger _ _ _ _) => True
  | _ => False

def WorkerPc.Logs : WorkerPc → Prop
  | .log _ _ _ => True
  | _ => False

/-- The node that the worker looks at or logs through. -/
def WorkerPc.Visits (a : Nat) : WorkerPc → Prop
  | .find _ _ p | .log _ _ p => p = some a
  | _ => False

/-- The globals when the main thread has made what its call has left to do. -/
def settle (g : Globals) : MainPc → Globals
  | .unlock (some a) | .free a => { g with
    heap := Function.update g.heap a none
    nloggers := g.nloggers - 1
    gHandle := if g.nloggers - 1 = 0 then -1 else g.gHandle }
  | .count => { g with
    nloggers := g.nloggers - 1
    gHandle := if g.nloggers - 1 = 0 then -1 else g.gHandle }
  | .default => { g with gHandle := if g.nloggers = 0 then -1 else g.gHandle }
  | _ => g

/-- A worker that goes through the list has the rest of it before it, and no logger of its handle
behind it; then it has found the one there is. The list is as it was when it locked the mutex. -/
def Walking (heap : Store Mlog) (nodes : Loggers) : WorkerPc → Prop
  | .find m taken current => IsList taken.heap taken.mloggers nodes ∧
    ∃ rest, IsList heap current rest ∧ (∀ c ∈ rest, c ∈ nodes) ∧ rest.length ≤ nodes.length ∧
      lookup rest m.handle = lookup nodes m.handle
  | .log m taken logger => IsList taken.heap taken.mloggers nodes ∧
    logger = (lookup nodes m.handle).map Prod.fst
  | _ => True

/-- The list is in order but for what the main thread has left to do to the counter and the default
handle, its node apart; whoever is inside has the mutex; every worker's walk is along the list. -/
structure Orderly (s : Threads) (nodes : Loggers) : Prop where
  settled : Registered (settle s.globals s.main) nodes
  frees : ∀ a, s.main.Frees a → (s.globals.heap a).isSome
  creates : ∀ a, s.main.Creates a → a ∉ nodes.map Prod.fst
  mainHas : s.main.Inside → s.owner = some .main
  workerHas : ∀ w, (s.workers w).Inside → s.owner = some (.worker w)
  walking : ∀ w, Walking s.globals.heap nodes (s.workers w)

variable {strftime : Bool → String → Text} {fuel : Nat} {s s' : Threads} {nodes : Loggers} {w : Nat}

theorem Walking.congr {heap heap' : Store Mlog} {pc : WorkerPc} (h : Walking heap nodes pc)
    (hsame : ∀ c ∈ nodes, heap' c.1 = heap c.1) : Walking heap' nodes pc := by
  cases pc with
  | find m taken current =>
    obtain ⟨htaken, rest, hrest, hsub, hlen, hlookup⟩ := h
    exact ⟨htaken, rest, Seg.congr hrest fun c hc => hsame c (hsub c hc), hsub, hlen, hlookup⟩
  | log m taken logger => exact h
  | idle | lock | unlock => trivial

theorem Walking.outside {heap : Store Mlog} {pc : WorkerPc} (h : ¬ pc.Inside) :
    Walking heap nodes pc := by
  cases pc with
  | find | log | unlock => exact absurd trivial h
  | idle | lock => trivial

@[simp] theorem settle_mloggers (g : Globals) (pc : MainPc) :
    (settle g pc).mloggers = g.mloggers := by
  unfold settle
  split <;> rfl

/-- The nodes of the list are there, whatever node is still to be freed. -/
theorem Orderly.same (h : Orderly s nodes) :
    ∀ c ∈ nodes, s.globals.heap c.1 = (settle s.globals s.main).heap c.1 := by
  intro c hc
  obtain ⟨n, hcell⟩ := h.settled.list.cell hc
  unfold settle at hcell ⊢
  split <;> simp_all [Function.update_apply]

theorem Orderly.list (h : Orderly s nodes) : IsList s.globals.heap s.globals.mloggers nodes := by
  have hlist := Seg.congr h.settled.list h.same
  rwa [settle_mloggers] at hlist

theorem Orderly.free (h : Orderly s nodes) (hfree : s.owner = none) (w : Nat) :
    ¬ (s.workers w).Inside := fun hin => by
  have := h.workerHas w hin
  rw [hfree] at this
  cases this

/-- While one worker is inside, no other one is, and the main thread is not. -/
theorem Orderly.alone (h : Orderly s nodes) (hin : (s.workers w).Inside) :
    ¬ s.main.Inside ∧ ∀ u, u ≠ w → ¬ (s.workers u).Inside := by
  have hown := h.workerHas w hin
  constructor
  · intro hmain
    rw [h.mainHas hmain] at hown
    cases hown
  · intro u hne hu
    rw [h.workerHas u hu] at hown
    exact hne (ThreadId.worker.inj (Option.some.inj hown))

theorem Orderly.mainAlone (h : Orderly s nodes) (hin : s.main.Inside) (w : Nat) :
    ¬ (s.workers w).Inside := fun hw => by
  have hown := h.workerHas w hw
  rw [h.mainHas hin] at hown
  cases hown

/-! ## What a worker's step does -/

/-- A worker goes on, and the mutex passes to it, or stays, or is let go. -/
theorem Orderly.setWorker (h : Orderly s nodes) {pc : WorkerPc} {owner : Option ThreadId}
    {output : List Event} (hmain : s.main.Inside → owner = some .main)
    (hself : pc.Inside → owner = some (.worker w))
    (hothers : ∀ u, u ≠ w → (s.workers u).Inside → owner = some (.worker u))
    (hwalk : Walking s.globals.heap nodes pc) :
    Orderly { s.setWorker w pc with owner := owner, output := output } nodes := by
  refine ⟨h.settled, h.frees, h.creates, hmain, fun u => ?_, fun u => ?_⟩
  · by_cases hu : u = w
    · subst hu
      simpa [Threads.setWorker] using hself
    · simpa [Threads.setWorker, hu] using hothers u hu
  · by_cases hu : u = w
    · subst hu
      simpa [Threads.setWorker] using hwalk
    · simpa [Threads.setWorker, hu] using h.walking u

theorem Orderly.goOn (h : Orderly s nodes) (hin : (s.workers w).Inside) {pc : WorkerPc}
    {output : List Event} (hwalk : Walking s.globals.heap nodes pc) :
    Orderly { s.setWorker w pc with output := output } nodes := by
  obtain ⟨hmain, hothers⟩ := h.alone hin
  exact h.setWorker (fun hm => absurd hm hmain) (fun _ => h.workerHas w hin)
    (fun u hu hi => absurd hi (hothers u hu)) hwalk

theorem workerStep_lock {m : Message} (hpc : s.workers w = .lock m) (hfree : s.owner = none) :
    workerStep strftime w s = .ok { s.setWorker w (.find m s.globals s.globals.mloggers) with
      owner := some (.worker w) } := by
  simp [workerStep, hpc, hfree]

theorem workerStep_unlock (hpc : s.workers w = .unlock) :
    workerStep strftime w s = .ok { s.setWorker w .idle with owner := none } := by
  simp [workerStep, hpc]

theorem workerStep_end {m : Message} {taken : Globals} (hpc : s.workers w = .find m taken none) :
    workerStep strftime w s = .ok (s.setWorker w (.log m taken none)) := by
  simp [workerStep, hpc, findCond]

theorem workerStep_node (strftime : Bool → String → Text) {m : Message} {taken : Globals} {a : Nat}
    {x : Mlog} {n : Ptr} (hpc : s.workers w = .find m taken (some a))
    (ha : s.globals.heap a = some ⟨x, n⟩) : workerStep strftime w s = .ok (s.setWorker w
      (if mloggerCheck m.handle x then .log m taken (some a) else .find m taken n)) := by
  by_cases hx : mloggerCheck m.handle x = true
  · simp [workerStep, hpc, findCond, Globals.vars, Store.load_of ha, hx]
  · simp [workerStep, hpc, findCond, advance, Globals.vars, Store.load_of ha, hx]

/-- A step in the list: to the next node, or to the logger that is there, or to the end. -/
theorem Walking.step {m : Message} {taken : Globals} {current : Ptr}
    (hpc : s.workers w = .find m taken current)
    (h : Walking s.globals.heap nodes (.find m taken current)) :
    ∃ pc, workerStep strftime w s = .ok (s.setWorker w pc) ∧ Walking s.globals.heap nodes pc := by
  obtain ⟨htaken, rest, hrest, hsub, hlen, hlookup⟩ := h
  cases rest with
  | nil =>
    obtain rfl := IsList.nil_iff.mp hrest
    exact ⟨_, workerStep_end hpc, htaken, by rw [← hlookup]; rfl⟩
  | cons c rest =>
    obtain ⟨a, x⟩ := c
    obtain ⟨rfl, n, ha, hrest⟩ := IsList.cons_iff.mp hrest
    refine ⟨_, workerStep_node _ hpc ha, ?_⟩
    by_cases hx : mloggerCheck m.handle x = true
    · rw [if_pos hx]
      exact ⟨htaken, by rw [← hlookup]; simp [lookup, hx]⟩
    · rw [if_neg hx]
      refine ⟨htaken, rest, hrest, fun c hc => hsub c (List.mem_cons_of_mem _ hc),
        Nat.le_of_succ_le hlen, ?_⟩
      rw [← hlookup]
      simp [lookup, hx]

/-- A worker's step goes well, but for the assertion in `vmlogf`. -/
theorem workerStep_orderly (strftime : Bool → String → Text) (h : Orderly s nodes) (w : Nat) :
    (workerStep strftime w s = .abort ∧ (s.workers w).Logs) ∨
      ∃ s', workerStep strftime w s = .ok s' ∧ Orderly s' nodes := by
  cases hpc : s.workers w with
  | idle => exact .inr ⟨s, by simp [workerStep, hpc], h⟩
  | lock m =>
    by_cases hfree : s.owner = none
    · refine .inr ⟨_, workerStep_lock hpc hfree, h.setWorker ?_ (fun _ => rfl) ?_ ?_⟩
      · intro hm
        rw [h.mainHas hm] at hfree
        cases hfree
      · exact fun u _ hu => absurd hu (h.free hfree u)
      · exact ⟨h.list, nodes, h.list, fun _ hc => hc, Nat.le_refl _, rfl⟩
    · exact .inr ⟨s, by simp [workerStep, hpc, hfree], h⟩
  | find m taken current =>
    have hin : (s.workers w).Inside := by rw [hpc]; trivial
    obtain ⟨pc, hstep, hwalk⟩ := Walking.step hpc (hpc ▸ h.walking w)
    exact .inr ⟨_, hstep, h.goOn hin hwalk⟩
  | log m taken logger =>
    have hin : (s.workers w).Inside := by rw [hpc]; trivial
    have hwalk := h.walking w
    rw [hpc] at hwalk
    obtain ⟨_, hlogger⟩ := hwalk
    cases hc : lookup nodes m.handle with
    | none =>
      obtain rfl : logger = none := by rw [hlogger, hc]; rfl
      have hgo : ∀ out, Orderly { s.setWorker w .unlock with output := out } nodes :=
        fun _ => h.goOn hin trivial
      exact .inr ⟨_, by simp only [workerStep, hpc]; rfl, hgo _⟩
    | some c =>
      obtain rfl : logger = some c.1 := by rw [hlogger, hc]; rfl
      obtain ⟨n, hcell⟩ := h.list.cell (a := c.1) (x := c.2) (lookup_eq_some hc).1
      by_cases hout : ∃ out, vmlogf strftime c.2 m.severity m.text = .ok out
      · obtain ⟨out, hout⟩ := hout
        refine .inr ⟨(s.print out).setWorker w .unlock, ?_, h.goOn hin trivial⟩
        simp [workerStep, hpc, Store.load_of hcell, hout]
      · refine .inl ⟨?_, trivial⟩
        simp [workerStep, hpc, Store.load_of hcell, (vmlogf_abort hout).1]
  | unlock =>
    have hin : (s.workers w).Inside := by rw [hpc]; trivial
    obtain ⟨hmain, hothers⟩ := h.alone hin
    exact .inr ⟨_, workerStep_unlock hpc, h.setWorker (fun hm => absurd hm hmain)
      (fun hi => absurd hi (by simp [WorkerPc.Inside]))
      (fun u hu hi => absurd hi (hothers u hu)) trivial⟩

/-! ## What the main thread's step does -/

theorem Registered.reheap {g : Globals} (hr : Registered g nodes) {heap : Store Mlog}
    (hsame : ∀ c ∈ nodes, heap c.1 = g.heap c.1) : Registered { g with heap := heap } nodes :=
  hr.relabel (Seg.congr hr.list hsame) rfl

theorem critical_spec {g : Globals} {call : MainCall} (hr : Registered g nodes)
    (hf : nodes.length + 1 < fuel) (hcreates : ∀ a, (MainPc.critical call).Creates a →
      a ∉ nodes.map Prod.fst) :
    (critical fuel g call = .fault ∧ (MainPc.critical call).Issues ∧ g.nextHandle = intMax) ∨
    ∃ g' freenode out nodes', critical fuel g call = .ok (g', freenode, out) ∧
      Registered (settle g' (.unlock freenode)) nodes' ∧ nodes'.length ≤ nodes.length + 1 ∧
      ∀ a, freenode = some a → (g'.heap a).isSome := by
  have hf' : nodes.length < fuel := by omega
  cases call with
  | getMlogger a type severity logtime =>
    by_cases hmax : g.nextHandle + 1 ≤ intMax
    · obtain ⟨g', out, hg, hr', _⟩ := getMlogger_spec hr hf (hcreates a rfl) hmax type severity
        logtime
      exact .inr ⟨g', none, out, _, by simp [critical, hg], hr', by simp, fun _ h => by cases h⟩
    · refine .inl ⟨?_, trivial, by have := hr.next; omega⟩
      simp only [critical, getMlogger]
      rw [Outcome.require_of_not hmax]
      rfl
  | shutdownMlogger handle =>
    obtain ⟨v, hv, ⟨_, hfree, hheap, hstart⟩ |
      ⟨pre, a, x, post, c, rfl, _, _, hfree, hc, hout, hlist⟩⟩ := unlinkLogger_spec hr hf' handle
    · refine .inr ⟨{ g with heap := v.heap, mloggers := v.start }, v.freenode, [], nodes,
        by simp [critical, hv], ?_, by omega, fun _ h => by rw [hfree] at h; cases h⟩
      rw [hfree, hheap, hstart]
      exact hr
    · refine .inr ⟨{ g with heap := v.heap, mloggers := v.start }, v.freenode, [], pre ++ post,
        by simp [critical, hv], ?_, by simp; omega, fun b hb => ?_⟩
      · rw [hfree]
        exact hr.unlink (hlist.update hout none)
      · obtain rfl := Option.some.inj (hfree.symm.trans hb)
        exact Option.isSome_iff_exists.mpr ⟨c, hc⟩
  | shutdownAllMloggers =>
    obtain ⟨g', hg, hr', _⟩ := shutdownAllMloggers_spec hr hf'
    exact .inr ⟨g', none, [], [], by simp [critical, hg], hr', by simp, fun _ h => by cases h⟩

/-- The main thread goes on without the mutex, and leaves the nodes of the list as they are. -/
theorem Orderly.mainOutside (h : Orderly s nodes) {g : Globals} {pc : MainPc} (hout : ¬ pc.Inside)
    (hsettled : Registered (settle g pc) nodes) (hfrees : ∀ a, pc.Frees a → (g.heap a).isSome)
    (hcreates : ∀ a, pc.Creates a → a ∉ nodes.map Prod.fst)
    (hsame : ∀ c ∈ nodes, g.heap c.1 = s.globals.heap c.1) :
    Orderly { s with globals := g, main := pc } nodes :=
  ⟨hsettled, hfrees, hcreates, fun hin => absurd hin hout, h.workerHas,
    fun w => (h.walking w).congr hsame⟩

/-- The main thread has the mutex: it may change the list, and let the mutex go. -/
theorem Orderly.mainInside (h : Orderly s nodes) (hin : s.main.Inside) {g : Globals} {pc : MainPc}
    {owner : Option ThreadId} {output : List Event} {nodes' : Loggers}
    (hsettled : Registered (settle g pc) nodes') (hfrees : ∀ a, pc.Frees a → (g.heap a).isSome)
    (hcreates : ∀ a, ¬ pc.Creates a) (hmain : pc.Inside → owner = some .main) :
    Orderly ⟨g, owner, pc, s.workers, output⟩ nodes' :=
  ⟨hsettled, hfrees, fun a hc => absurd hc (hcreates a), hmain,
    fun w hw => absurd hw (h.mainAlone hin w), fun w => .outside (h.mainAlone hin w)⟩

/-- The main thread's step goes well, but for the overflow of `next_handle`. -/
theorem mainStep_orderly (h : Orderly s nodes) (hf : nodes.length + 1 < fuel) :
    (mainStep fuel s = .fault ∧ s.main.Issues ∧ s.globals.nextHandle = intMax) ∨
      ∃ s' nodes', mainStep fuel s = .ok s' ∧ Orderly s' nodes' ∧
        nodes'.length ≤ nodes.length + 1 := by
  obtain ⟨g, owner, main, workers, output⟩ := s
  cases main with
  | idle => exact .inr ⟨_, nodes, rfl, h, by omega⟩
  | lock call =>
    by_cases hfree : owner = none
    · refine .inr ⟨⟨g, some .main, .critical call, workers, output⟩, nodes,
        by simp [mainStep, hfree], ?_, by omega⟩
      exact ⟨h.settled, fun _ hf => hf.elim, fun a ha => h.creates a (by cases call <;> exact ha),
        fun _ => rfl, fun w hw => absurd hw (h.free hfree w), h.walking⟩
    · exact .inr ⟨_, nodes, by simp [mainStep, hfree], h, by omega⟩
  | critical call =>
    obtain ⟨hfault, hmax⟩ | ⟨g', freenode, out, nodes', hg, hr', hlen, hthere⟩ :=
      critical_spec h.settled hf h.creates
    · have hfault : critical fuel g call = .fault := hfault
      exact .inl ⟨by simp [mainStep, hfault], hmax⟩
    · have hg : critical fuel g call = .ok (g', freenode, out) := hg
      refine .inr ⟨⟨g', owner, .unlock freenode, workers, output ++ out⟩, nodes',
        by simp [mainStep, hg, Threads.print], ?_, hlen⟩
      exact h.mainInside trivial hr' hthere (fun _ => id) fun _ => h.mainHas trivial
  | unlock freenode =>
    cases freenode with
    | none =>
      refine .inr ⟨⟨g, none, .idle, workers, output⟩, nodes, rfl, ?_, by omega⟩
      exact h.mainInside trivial h.settled (fun _ hf => hf.elim) (fun _ => id) fun hi => hi.elim
    | some a =>
      refine .inr ⟨⟨g, none, .free a, workers, output⟩, nodes, rfl, ?_, by omega⟩
      exact h.mainInside trivial h.settled
        (fun b hb => h.frees b (by rw [← show a = b from hb]; rfl)) (fun _ => id) fun hi => hi.elim
  | free a =>
    obtain ⟨c, hc⟩ := Option.isSome_iff_exists.mp (h.frees a rfl)
    have hc : g.heap a = some c := hc
    refine .inr ⟨⟨{ g with heap := Function.update g.heap a none }, owner, .count, workers, output⟩,
      nodes, by simp [mainStep, freeNode, Store.load_of hc], ?_, by omega⟩
    exact h.mainOutside id h.settled (fun _ hf => hf.elim) (fun _ hc => hc.elim)
      fun c hc => (h.same c hc).symm
  | count =>
    refine .inr ⟨⟨{ g with nloggers := g.nloggers - 1 }, owner, .default, workers, output⟩, nodes,
      rfl, ?_, by omega⟩
    exact h.mainOutside id h.settled (fun _ hf => hf.elim) (fun _ hc => hc.elim) fun _ _ => rfl
  | default =>
    refine .inr ⟨_, nodes, rfl, ?_, by omega⟩
    exact h.mainOutside id h.settled (fun _ hf => hf.elim) (fun _ hc => hc.elim) fun _ _ => rfl

/-! ## Runs -/

/-- The step goes well; or a worker that logs fails the assertion in `vmlogf`, or the main thread is
to give a handle out and there are no more. -/
def GoesWell (strftime : Bool → String → Text) (fuel : Nat) (s : Threads) (a : Act) : Prop :=
  match threadStep strftime fuel s a with
  | .ok _ => True
  | .abort => ∃ w, a = .worker w ∧ (s.workers w).Logs
  | .fault => a = .main ∧ s.main.Issues ∧ s.globals.nextHandle = intMax
  | .hang => False

theorem Orderly.enter (h : Orderly s nodes) (hidle : s.main = .idle) {call : MainCall}
    (hcreates : ∀ a, (MainPc.lock call).Creates a → a ∉ nodes.map Prod.fst) :
    Orderly { s with main := .lock call } nodes := by
  have hsettled := h.settled
  rw [hidle] at hsettled
  exact h.mainOutside id hsettled (fun _ hf => hf.elim) hcreates fun _ _ => rfl

theorem callGetMlogger_orderly (h : Orderly s nodes) (hidle : s.main = .idle)
    (malloc : Option (Nat × Cell Mlog)) (type : LoggerType) (severity : LogSeverity)
    (logtime : LogTime) : Orderly (callGetMlogger malloc type severity logtime s) nodes := by
  have hsettled := h.settled
  rw [hidle] at hsettled
  cases malloc with
  | none => exact ⟨h.settled, h.frees, h.creates, h.mainHas, h.workerHas, h.walking⟩
  | some p =>
    obtain ⟨a, garbage⟩ := p
    by_cases hfresh : s.globals.heap a = none
    · simp only [callGetMlogger, if_pos hfresh]
      have hnew := hsettled.notMem hfresh
      have hsame : ∀ c ∈ nodes, Function.update s.globals.heap a (some garbage) c.1 =
          s.globals.heap c.1 := fun c hc => by
        have hmem : c.1 ∈ nodes.map Prod.fst := List.mem_map_of_mem hc
        exact Function.update_of_ne (fun he : c.1 = a => hnew (he ▸ hmem)) _ _
      exact h.mainOutside id (hsettled.reheap hsame) (fun _ hf => hf.elim)
        (fun b hb => by rwa [← show a = b from hb]) hsame
    · simp only [callGetMlogger, if_neg hfresh]
      exact h

theorem threadStep_orderly (strftime : Bool → String → Text) (h : Orderly s nodes)
    (hf : nodes.length + 1 < fuel) (a : Act) :
    GoesWell strftime fuel s a ∧ ∀ s' r, threadStep strftime fuel s a = .ok (s', r) →
      ∃ nodes', Orderly s' nodes' ∧ nodes'.length ≤ nodes.length + 1 := by
  have hcall : ∀ t, threadStep strftime fuel s a = .ok (t, ()) → Orderly t nodes →
      GoesWell strftime fuel s a ∧ ∀ s' r, threadStep strftime fuel s a = .ok (s', r) →
        ∃ nodes', Orderly s' nodes' ∧ nodes'.length ≤ nodes.length + 1 := by
    intro t ht horderly
    refine ⟨by simp [GoesWell, ht], fun s' r hs => ?_⟩
    rw [ht] at hs
    cases hs
    exact ⟨nodes, horderly, Nat.le_succ _⟩
  cases a with
  | getMlogger malloc type severity logtime =>
    refine hcall _ rfl ?_
    split
    · next hidle => exact callGetMlogger_orderly h hidle malloc type severity logtime
    · exact h
  | shutdownMlogger handle =>
    refine hcall _ rfl ?_
    split
    · next hidle => exact h.enter hidle fun _ hc => hc.elim
    · exact h
  | shutdownAllMloggers =>
    refine hcall _ rfl ?_
    split
    · next hidle => exact h.enter hidle fun _ hc => hc.elim
    · exact h
  | mlogf w m =>
    refine hcall _ rfl ?_
    split
    · next hidle =>
      split
      · exact h
      · exact h.setWorker h.mainHas (fun hi => hi.elim) (fun u _ hu => h.workerHas u hu) trivial
    · exact h
  | main =>
    obtain ⟨hfault, hissues, hmax⟩ | ⟨t, nodes', ht, horderly, hlen⟩ := mainStep_orderly h hf
    · refine ⟨by simp [GoesWell, threadStep, hfault, hissues, hmax], fun s' r hs => ?_⟩
      simp [threadStep, hfault] at hs
    · refine ⟨by simp [GoesWell, threadStep, ht], fun s' r hs => ?_⟩
      simp only [threadStep, ht, Outcome.ok_bind] at hs
      cases hs
      exact ⟨nodes', horderly, hlen⟩
  | worker w =>
    obtain ⟨habort, hlogs⟩ | ⟨t, ht, horderly⟩ := workerStep_orderly strftime h w
    · refine ⟨by simp [GoesWell, threadStep, habort, hlogs], fun s' r hs => ?_⟩
      simp [threadStep, habort] at hs
    · exact hcall t (by simp [threadStep, ht]) horderly

theorem Orderly.start : Orderly .start [] :=
  ⟨.start, fun _ hf => hf.elim, fun _ hc => hc.elim, fun hi => hi.elim, fun _ hi => hi.elim,
    fun _ => trivial⟩

/-- With no step in between, the main thread's statements are `shutdown_mlogger`. -/
theorem shutdown_undisturbed {handle : Int} (hmain : s.main = .lock (.shutdownMlogger handle))
    (hfree : s.owner = none) : alone (mainStep fuel) 6 s = (do
      let (g, _) ← shutdownMlogger fuel handle s.globals
      return { s with globals := g, main := .idle }) := by
  obtain ⟨g, owner, main, workers, output⟩ := s
  obtain rfl : main = .lock (.shutdownMlogger handle) := hmain
  obtain rfl : owner = none := hfree
  simp only [alone, mainStep, if_true, critical, shutdownMlogger, Outcome.ok_bind, Outcome.pure_eq]
  cases mlinkedListRemove mloggerCheck fuel handle g.vars with
  | ok v =>
    cases hnode : v.freenode with
    | none => simp [hnode, Threads.print]
    | some a =>
      simp only [Outcome.ok_bind, hnode, Threads.print]
      cases freeNode (some a) v.heap <;> simp
  | abort | fault | hang => rfl

/-- Left to itself, a worker in the list gets to the logger of its handle. -/
theorem walk_alone (strftime : Bool → String → Text) {m : Message} {taken : Globals} :
    ∀ (rest : Loggers) (s : Threads) (current : Ptr), s.workers w = .find m taken current →
      IsList s.globals.heap current rest →
      ∃ k, k ≤ rest.length + 1 ∧ ∀ j, alone (workerStep strftime w) (k + j) s =
        alone (workerStep strftime w) j
          (s.setWorker w (.log m taken ((lookup rest m.handle).map Prod.fst))) := by
  intro rest
  induction rest with
  | nil =>
    intro s current hpc hrest
    obtain rfl := IsList.nil_iff.mp hrest
    refine ⟨1, Nat.le_refl _, fun j => ?_⟩
    rw [Nat.add_comm, alone, workerStep_end hpc]
    rfl
  | cons c rest ih =>
    intro s current hpc hrest
    obtain ⟨a, x⟩ := c
    obtain ⟨rfl, n, ha, hrest⟩ := IsList.cons_iff.mp hrest
    have hstep := workerStep_node strftime hpc ha
    by_cases hx : mloggerCheck m.handle x = true
    · rw [if_pos hx] at hstep
      refine ⟨1, Nat.le_add_left _ _, fun j => ?_⟩
      rw [Nat.add_comm, alone, hstep]
      simp [lookup, hx]
    · rw [if_neg hx] at hstep
      obtain ⟨k, hk, hrun⟩ := ih (s.setWorker w (.find m taken n)) n (setWorker_workers _ _ _) hrest
      refine ⟨k + 1, Nat.succ_le_succ hk, fun j => ?_⟩
      rw [Nat.succ_add, alone, hstep]
      simp [hrun, lookup, hx]

/-- What a worker does with the logger found is what `mlogf` does. -/
theorem workerStep_log (strftime : Bool → String → Text) {g : Globals} (hr : Registered g nodes)
    (hf : nodes.length < fuel) (hg : s.globals = g) {m : Message} {taken : Globals}
    (hm : 0 ≤ m.handle)
    (hpc : s.workers w = .log m taken ((lookup nodes m.handle).map Prod.fst)) :
    workerStep strftime w s = (do
      let out ← mlogf fuel strftime m.handle m.severity m.text g
      return (s.print out).setWorker w .unlock) := by
  rw [mlogf_spec hr hf]
  cases hc : lookup nodes m.handle with
  | none =>
    rw [hc] at hpc
    simp [workerStep, hpc, Int.not_lt.mpr hm]
  | some c =>
    rw [hc] at hpc
    obtain ⟨n, hload⟩ := findMlogger_load hr (lookup_eq_some hc).1
    simp [workerStep, hpc, hg, hload]

/-- With no step in between, a worker's statements are `mlogf`. -/
theorem mlogf_undisturbed (h : Orderly s nodes) (hidle : s.main = .idle) (hfree : s.owner = none)
    (hf : nodes.length < fuel) {m : Message} (hpc : s.workers w = .lock m) (hm : 0 ≤ m.handle) :
    ∃ k, alone (workerStep strftime w) k s = (do
      let out ← mlogf fuel strftime m.handle m.severity m.text s.globals
      return (s.print out).setWorker w .idle) := by
  have hr : Registered (settle s.globals .idle) nodes := hidle ▸ h.settled
  have hr : Registered s.globals nodes := hr
  let inside : Threads :=
    { s.setWorker w (.find m s.globals s.globals.mloggers) with owner := some (.worker w) }
  obtain ⟨k, _, hwalk⟩ := walk_alone (w := w) strftime nodes inside s.globals.mloggers
    (setWorker_workers _ _ _) h.list
  have hlog := workerStep_log (w := w) strftime hr hf
    (show (inside.setWorker w (.log m s.globals _)).globals = s.globals from rfl) hm
    (setWorker_workers _ _ _)
  refine ⟨k + 2 + 1, ?_⟩
  rw [alone, workerStep_lock hpc hfree, Outcome.ok_bind, hwalk 2, alone, hlog]
  cases mlogf fuel strftime m.handle m.severity m.text s.globals with
  | ok out =>
    simp only [Outcome.ok_bind, Outcome.pure_eq, alone,
      workerStep_unlock (setWorker_workers _ w _), setWorker_setWorker]
    simp [inside, Threads.setWorker, Threads.print, hfree]
  | abort | fault | hang => rfl

/-- A worker that has locked the mutex gets to the logger of its handle, if there was one on the
list when it did, and nothing has changed on the list since. -/
def ReachesLogger (strftime : Bool → String → Text) (s : Threads) (w : Nat) : Prop :=
  ∀ m taken p, s.workers w = .find m taken p ∨ s.workers w = .log m taken p →
    ∃ nodes logger, IsList taken.heap taken.mloggers nodes ∧
      IsList s.globals.heap s.globals.mloggers nodes ∧
      (∀ c ∈ nodes, c.2.handle = m.handle → logger = some c.1) ∧
      ∃ k t, k ≤ nodes.length + 1 ∧ alone (workerStep strftime w) k s = .ok t ∧
        t.workers w = .log m taken logger

theorem Orderly.reachesLogger (h : Orderly s nodes) (w : Nat) : ReachesLogger strftime s w := by
  intro m taken p hpc
  have hwalk := h.walking w
  have hlive : ∀ c ∈ nodes, c.2.handle = m.handle →
      (lookup nodes m.handle).map Prod.fst = some c.1 := fun c hc hhandle => by
    rw [← hhandle, h.settled.lookup_of_mem hc]
    rfl
  obtain hpc | hpc := hpc
  · rw [hpc] at hwalk
    obtain ⟨htaken, rest, hrest, _, hlen, hlookup⟩ := hwalk
    obtain ⟨k, hk, hrun⟩ := walk_alone strftime rest s p hpc hrest
    rw [hlookup] at hrun
    exact ⟨nodes, _, htaken, h.list, hlive, k, _, by omega, hrun 0, setWorker_workers _ _ _⟩
  · rw [hpc] at hwalk
    obtain ⟨htaken, rfl⟩ := hwalk
    exact ⟨nodes, _, htaken, h.list, hlive, 0, s, Nat.zero_le _, rfl, hpc⟩

/-- The node that a worker looks at is on the list. -/
theorem Orderly.visits (h : Orderly s nodes) {a : Nat} (hv : (s.workers w).Visits a) :
    (s.globals.heap a).isSome := by
  have hwalk := h.walking w
  cases hpc : s.workers w with
  | find m taken current =>
    rw [hpc] at hv hwalk
    obtain ⟨_, rest, hrest, _⟩ := hwalk
    obtain rfl : current = some a := hv
    cases rest with
    | nil => cases IsList.nil_iff.mp hrest
    | cons c rest =>
      obtain ⟨hc, n, hcell, _⟩ := Seg.cons_iff.mp hrest
      cases hc
      exact Option.isSome_iff_exists.mpr ⟨_, hcell⟩
  | log m taken logger =>
    rw [hpc] at hv hwalk
    obtain ⟨_, hlogger⟩ := hwalk
    obtain rfl : logger = some a := hv
    obtain ⟨c, hc, rfl⟩ := Option.map_eq_some_iff.mp hlogger.symm
    obtain ⟨n, hcell⟩ := h.list.cell (a := c.1) (x := c.2) (lookup_eq_some hc).1
    exact Option.isSome_iff_exists.mpr ⟨_, hcell⟩
  | idle | lock | unlock =>
    rw [hpc] at hv
    exact hv.elim

/-- **Logging among threads.** In every interleaving of any number of workers in `mlogf` with a main
thread that creates and shuts down loggers, every step goes well: no node is visited, logged through
or freed that is not allocated. And a worker gets to the logger that was there for its handle when
it locked the mutex. -/
theorem mlogf_thread_safe (strftime : Bool → String → Text) (fuel : Nat) (acts : List Act)
    (hf : acts.length + 1 < fuel) :
    (∀ p ∈ visits (threadStep strftime fuel) .start acts, GoesWell strftime fuel p.1 p.2) ∧
    ∀ s ∈ reached (threadStep strftime fuel) .start acts,
      (∀ a, s.main.Frees a → (s.globals.heap a).isSome) ∧
      ∀ w, (∀ a, (s.workers w).Visits a → (s.globals.heap a).isSome) ∧
        ReachesLogger strftime s w := by
  -- there is room for a node from every act still to come
  let I : List Act → Threads → Prop := fun os s =>
    ∃ nodes, Orderly s nodes ∧ nodes.length + os.length + 1 < fuel
  have hstep : ∀ (a : Act) (os : List Act) (s : Threads), I (a :: os) s →
      GoesWell strftime fuel s a ∧
        ∀ s' r, threadStep strftime fuel s a = .ok (s', r) → I os s' := by
    intro a os s hI
    obtain ⟨nodes, horderly, hroom⟩ := hI
    rw [List.length_cons] at hroom
    obtain ⟨hwell, hnext⟩ := threadStep_orderly strftime horderly
      (show nodes.length + 1 < fuel by omega) a
    refine ⟨hwell, fun s' r hs => ?_⟩
    obtain ⟨nodes', horderly', hlen⟩ := hnext s' r hs
    exact ⟨nodes', horderly', by omega⟩
  have hinit : I acts .start := ⟨[], .start, by simpa using hf⟩
  constructor
  · exact forall_visits I (fun _ _ => True) (GoesWell strftime fuel)
      (fun a os s hI _ => hstep a os s hI) acts _ hinit fun _ _ => trivial
  · intro s hs
    obtain ⟨_, nodes, horderly, _⟩ := forall_reached I (fun _ _ => True)
      (fun a os s s' r hI _ h => (hstep a os s hI).2 s' r h) acts _ hinit (fun _ _ => trivial) s hs
    exact ⟨horderly.frees, fun w => ⟨fun _ => horderly.visits, horderly.reachesLogger w⟩⟩

/-- A worker logs while the main thread waits to shut its logger down; then the node is unlinked,
and it is there to be freed. -/
theorem mlogf_thread_safe_handover :
    ∃ s ∈ reached (threadStep (fun _ _ => []) 20) .start
      [.getMlogger (some (0, ⟨freshLogger .none .trace .none 7, none⟩)) .stdout .info .none,
        .main, .main, .main, .mlogf 5 ⟨0, .error, [104]⟩, .worker 5, .shutdownMlogger 0, .main,
        .worker 5, .worker 5, .worker 5, .main, .main],
      s.main.Frees 0 ∧ (s.globals.heap 0).isSome := by
  obtain ⟨s, hs, hfrees⟩ := List.any_eq_true.mp (by decide +kernel :
    ((reached (threadStep (fun _ _ => []) 20) .start
      [.getMlogger (some (0, ⟨freshLogger .none .trace .none 7, none⟩)) .stdout .info .none,
        .main, .main, .main, .mlogf 5 ⟨0, .error, [104]⟩, .worker 5, .shutdownMlogger 0, .main,
        .worker 5, .worker 5, .worker 5, .main, .main]).any
          fun s => decide (s.main.Frees 0)) = true)
  have hfrees := of_decide_eq_true hfrees
  exact ⟨s, hs, hfrees, ((mlogf_thread_safe (fun _ _ => []) 20 _ (by decide)).2 s hs).1 0 hfrees⟩

end Mikelibc.Log
