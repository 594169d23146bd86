import Mikelibc.Log.Code
import Mikelibc.Linked.Macros

/-! # The list of loggers and the globals around it

`Registered g nodes` ties the global variables to the list of loggers: the count,
the handles in increasing order below `next_handle`, and the default handle, which
is -1 or 0. Every operation keeps it, and has one lemma here that says what it
does to the list. -/
namespace Mikelibc.Log
open CSem Linked

abbrev Loggers := List (Nat × Mlog)

def handles (nodes : Loggers) : List Int := nodes.map fun c => c.2.handle

/-- The globals go with this list of loggers. -/
structure Registered (g : Globals) (nodes : Loggers) : Prop where
  list : IsList g.heap g.mloggers nodes
  count : g.nloggers.toNat = nodes.length
  few : nodes.length ≤ g.nextHandle
  sorted : (handles nodes).Pairwise (· < ·)
  range : ∀ h ∈ handles nodes, 0 ≤ h ∧ h < g.nextHandle
  next : g.nextHandle ≤ intMax
  default : g.gHandle = if nodes = [] then -1 else 0

theorem Registered.start : Registered .start [] :=
  ⟨.nil none, rfl, Int.le_refl 0, List.Pairwise.nil, by simp [handles], by decide, rfl⟩

variable {fuel : Nat} {g : Globals} {nodes : Loggers} {h : Int}

/-- A handle is that of one logger or of none. -/
theorem Registered.cases (hr : Registered g nodes) (h : Int) :
    (∀ c ∈ nodes, mloggerCheck h c.2 = false) ∨
    ∃ pre a x post, nodes = pre ++ (a, x) :: post ∧ mloggerCheck h x = true ∧
      (∀ c ∈ pre, mloggerCheck h c.2 = false) ∧ ∀ c ∈ post, mloggerCheck h c.2 = false := by
  by_cases hex : ∃ c ∈ nodes, mloggerCheck h c.2 = true
  · obtain ⟨⟨a, x⟩, hmem, hx⟩ := hex
    obtain ⟨pre, post, rfl⟩ := List.append_of_mem hmem
    have hsorted := hr.sorted
    simp only [handles, List.map_append, List.map_cons, List.pairwise_append,
      List.pairwise_cons] at hsorted
    have hxh : x.handle = h := by simpa [mloggerCheck] using hx
    refine .inr ⟨pre, a, x, post, rfl, hx, fun c hc => ?_, fun c hc => ?_⟩
    · have hlt := hsorted.2.2 c.2.handle (List.mem_map_of_mem hc) x.handle List.mem_cons_self
      simp [mloggerCheck, Int.ne_of_lt (hxh ▸ hlt)]
    · have hlt := hsorted.2.1.1 c.2.handle (List.mem_map_of_mem hc)
      simp [mloggerCheck, Int.ne_of_gt (hxh ▸ hlt)]
  · refine .inl fun c hc => ?_
    rw [← Bool.not_eq_true]
    exact fun hx => hex ⟨c, hc, hx⟩

/-- Other fields of the loggers do not matter. -/
theorem Registered.relabel (hr : Registered g nodes) {heap : Store Mlog} {nodes' : Loggers}
    (hlist : IsList heap g.mloggers nodes') (hh : handles nodes' = handles nodes) :
    Registered { g with heap := heap } nodes' := by
  have hlen : nodes'.length = nodes.length := by
    simpa [handles] using congrArg List.length hh
  have hnil : nodes' = [] ↔ nodes = [] := by
    rw [← List.length_eq_zero_iff, hlen, List.length_eq_zero_iff]
  refine ⟨hlist, hr.count.trans hlen.symm, ?_, hh ▸ hr.sorted, hh ▸ hr.range, hr.next, ?_⟩
  · rw [hlen]; exact hr.few
  · simp only [hnil]; exact hr.default

/-! ## Finding and assigning -/

def lookup (nodes : Loggers) (h : Int) : Option (Nat × Mlog) :=
  nodes.find? fun c => mloggerCheck h c.2

theorem findMlogger_list (hl : IsList g.heap g.mloggers nodes) (hf : nodes.length < fuel) (h : Int) :
    findMlogger fuel h g = .ok ((lookup nodes h).map Prod.fst) := by
  rw [findMlogger, mlinkedListFind_spec (v := g.vars) hl hf]
  rfl

theorem findMlogger_spec (hr : Registered g nodes) (hf : nodes.length < fuel) (h : Int) :
    findMlogger fuel h g = .ok ((lookup nodes h).map Prod.fst) := findMlogger_list hr.list hf h

/-- The logger of the handle with its fields assigned to, the others as they are. -/
def modify (h : Int) (f : Mlog → Mlog) (nodes : Loggers) : Loggers :=
  nodes.map fun c => if mloggerCheck h c.2 then (c.1, f c.2) else c

theorem modify_none (hnone : ∀ c ∈ nodes, mloggerCheck h c.2 = false) (f : Mlog → Mlog) :
    modify h f nodes = nodes := by
  unfold modify
  conv_rhs => rw [← List.map_id nodes]
  exact List.map_congr_left fun c hc => by simp [hnone c hc]

theorem modify_middle {pre post : Loggers} {a : Nat} {x : Mlog} (hx : mloggerCheck h x = true)
    (hpre : ∀ c ∈ pre, mloggerCheck h c.2 = false) (hpost : ∀ c ∈ post, mloggerCheck h c.2 = false)
    (f : Mlog → Mlog) : modify h f (pre ++ (a, x) :: post) = pre ++ (a, f x) :: post := by
  have h1 := modify_none hpre f
  have h2 := modify_none hpost f
  simp only [modify] at h1 h2
  rw [modify, List.map_append, List.map_cons, h1, h2, if_pos hx]

theorem lookup_none (hnone : ∀ c ∈ nodes, mloggerCheck h c.2 = false) : lookup nodes h = none :=
  List.find?_eq_none.mpr fun c hc => by simp [hnone c hc]

theorem lookup_middle {pre post : Loggers} {a : Nat} {x : Mlog} (hx : mloggerCheck h x = true)
    (hpre : ∀ c ∈ pre, mloggerCheck h c.2 = false) :
    lookup (pre ++ (a, x) :: post) h = some (a, x) := by
  have hno := lookup_none hpre
  rw [lookup] at hno ⊢
  rw [List.find?_append, hno, Option.none_or, List.find?_cons, hx]

theorem updateLogger_spec {pre post : Loggers} {a : Nat} {x : Mlog}
    (hlist : IsList g.heap g.mloggers (pre ++ (a, x) :: post)) (f : Mlog → Mlog) :
    ∃ heap, updateLogger (some a) f g = .ok { g with heap := heap } ∧
      IsList heap g.mloggers (pre ++ (a, f x) :: post) := by
  obtain ⟨n, ha⟩ := hlist.middle
  exact ⟨_, by simp [updateLogger, Store.load_of ha, Store.store_of ha], hlist.setPayload ha (f x)⟩

/-- A setter assigns to the fields of the logger of the handle, and does nothing without one. -/
theorem withLogger_spec (hr : Registered g nodes) (hf : nodes.length < fuel) (h : Int)
    {f : Mlog → Mlog} (hkeep : ∀ x, (f x).handle = x.handle) (complaint : String) :
    ∃ heap out, withLogger fuel h f complaint g = .ok ({ g with heap := heap }, out) ∧
      Registered { g with heap := heap } (modify h f nodes) ∧
      ((∀ c ∈ nodes, mloggerCheck h c.2 = false) → heap = g.heap) := by
  have hfind := findMlogger_spec hr hf h
  rcases hr.cases h with hnone | ⟨pre, a, x, post, rfl, hx, hpre, hpost⟩
  · rw [lookup_none hnone] at hfind
    exact ⟨g.heap, _, by simp only [withLogger, hfind, Outcome.ok_bind]; rfl,
      by rw [modify_none hnone]; exact hr, fun _ => rfl⟩
  · rw [lookup_middle hx hpre] at hfind
    obtain ⟨heap, hupdate, hlist⟩ := updateLogger_spec hr.list f
    refine ⟨heap, [], by simp [withLogger, hfind, hupdate], ?_, fun hnone => ?_⟩
    · rw [modify_middle hx hpre hpost]
      exact hr.relabel hlist (by simp [handles, hkeep])
    · simp [hnone (a, x) (by simp)] at hx

/-- What `setloggertype` does to the logger of the handle. -/
def retarget (type : LoggerType) (path : Option String) (fopen : Except String Nat) (x : Mlog) :
    Mlog :=
  if type = .file then
    match path, fopen with
    | none, _ => { x with loggertype := .file }
    | some _, .ok id => { x with loggertype := .file, logfile := some (.file id) }
    | some _, .error _ => { x with loggertype := .none, logfile := none }
  else { x with loggertype := type, logfile := some (if type = .stderr then .stderr else .stdout) }

def retargetValue (type : LoggerType) (path : Option String) (fopen : Except String Nat) : Int :=
  if type = .file then
    match path, fopen with
    | some _, .ok _ => 1
    | _, _ => 0
  else 1

def opened (type : LoggerType) (path : Option String) (fopen : Except String Nat) : List Nat :=
  if type = .file then
    match path, fopen with
    | some _, .ok id => [id]
    | _, _ => []
  else []

theorem opened_noPath (type : LoggerType) (fopen : Except String Nat) :
    opened type none fopen = [] := by
  unfold opened
  split <;> rfl

theorem retarget_handle (type : LoggerType) (path : Option String) (fopen : Except String Nat)
    (x : Mlog) :
    (retarget type path fopen x).handle = x.handle := by
  unfold retarget
  split
  · split <;> rfl
  · rfl

theorem setloggertype_middle {pre post : Loggers} {a : Nat} {x : Mlog}
    (hlist : IsList g.heap g.mloggers (pre ++ (a, x) :: post))
    (hf : (pre ++ (a, x) :: post).length < fuel) (hx : mloggerCheck h x = true)
    (hpre : ∀ c ∈ pre, mloggerCheck h c.2 = false) (type : LoggerType) (path : Option String)
    (fopen : Except String Nat) :
    ∃ heap out, setloggertype fuel h type path fopen g =
        .ok ({ g with heap := heap, openFiles := opened type path fopen ++ g.openFiles },
          retargetValue type path fopen, out) ∧
      IsList heap g.mloggers (pre ++ (a, retarget type path fopen x) :: post) := by
  have hfind := findMlogger_list hlist hf h
  rw [lookup_middle hx hpre] at hfind
  -- the type is assigned first, the rest follows from there
  obtain ⟨heap₁, hup₁, hlist₁⟩ := updateLogger_spec hlist fun l => { l with loggertype := type }
  by_cases htype : type = .file
  · subst htype
    cases path with
    | none => exact ⟨heap₁, _, by simp [setloggertype, hfind, hup₁]; exact ⟨rfl, rfl, rfl⟩, hlist₁⟩
    | some p =>
      cases fopen with
      | ok id =>
        obtain ⟨heap₂, hup₂, hlist₂⟩ := updateLogger_spec (g := { g with heap := heap₁ }) hlist₁
          fun l => { l with logfile := some (.file id) }
        exact ⟨heap₂, [], by simp [setloggertype, hfind, hup₁, hup₂]; exact ⟨rfl, rfl⟩, hlist₂⟩
      | error e =>
        obtain ⟨heap₂, hup₂, hlist₂⟩ := updateLogger_spec (g := { g with heap := heap₁ }) hlist₁
          fun l => { l with logfile := none }
        obtain ⟨heap₃, hup₃, hlist₃⟩ := updateLogger_spec (g := { g with heap := heap₂ }) hlist₂
          fun l => { l with loggertype := .none }
        exact ⟨heap₃, _, by simp [setloggertype, hfind, hup₁, hup₂, hup₃]; exact ⟨rfl, rfl, rfl⟩,
          hlist₃⟩
  · have hret : retarget type path fopen x = { x with
        loggertype := type, logfile := some (if type = .stderr then .stderr else .stdout) } := by
      simp [retarget, htype]
    have hopened : opened type path fopen = [] := by simp [opened, htype]
    have hvalue : retargetValue type path fopen = 1 := by simp [retargetValue, htype]
    obtain ⟨heap₂, hup₂, hlist₂⟩ := updateLogger_spec (g := { g with heap := heap₁ }) hlist₁
      fun l => { l with logfile := some (if type = .stderr then .stderr else .stdout) }
    rw [hret, hopened, hvalue]
    refine ⟨heap₂, [], ?_, hlist₂⟩
    by_cases hstderr : type = .stderr <;> simp_all [setloggertype]

theorem setloggertype_unknown (hlist : IsList g.heap g.mloggers nodes) (hf : nodes.length < fuel)
    (hnone : ∀ c ∈ nodes, mloggerCheck h c.2 = false) (type : LoggerType) (path : Option String)
    (fopen : Except String Nat) :
    ∃ out, setloggertype fuel h type path fopen g = .ok (g, 0, out) := by
  have hfind := findMlogger_list hlist hf h
  rw [lookup_none hnone] at hfind
  exact ⟨_, by simp only [setloggertype, hfind, Outcome.ok_bind]; rfl⟩

theorem setloggertype_spec (hr : Registered g nodes) (hf : nodes.length < fuel) (h : Int)
    (type : LoggerType) (path : Option String) (fopen : Except String Nat) :
    ∃ heap files value out, setloggertype fuel h type path fopen g =
        .ok ({ g with heap := heap, openFiles := files }, value, out) ∧
      Registered { g with heap := heap, openFiles := files }
        (modify h (retarget type path fopen) nodes) ∧
      ((∀ c ∈ nodes, mloggerCheck h c.2 = false) → heap = g.heap ∧ files = g.openFiles ∧ value = 0) ∧
      ((∃ c ∈ nodes, mloggerCheck h c.2 = true) →
        value = retargetValue type path fopen ∧ files = opened type path fopen ++ g.openFiles) := by
  rcases hr.cases h with hnone | ⟨pre, a, x, post, rfl, hx, hpre, hpost⟩
  · obtain ⟨out, hset⟩ := setloggertype_unknown hr.list hf hnone type path fopen
    refine ⟨g.heap, g.openFiles, 0, out, hset,
      by rw [modify_none hnone]; exact hr, fun _ => ⟨rfl, rfl, rfl⟩, fun ⟨c, hc, hx⟩ => ?_⟩
    simp [hnone c hc] at hx
  · obtain ⟨heap, out, hset, hlist⟩ := setloggertype_middle hr.list hf hx hpre type path fopen
    have hlisted := hr.relabel hlist (by simp [handles, retarget_handle])
    rw [modify_middle hx hpre hpost]
    refine ⟨heap, _, _, out, hset, ⟨hlisted.list, hlisted.count, hlisted.few, hlisted.sorted,
      hlisted.range, hlisted.next, hlisted.default⟩, fun hnone => ?_, fun _ => ⟨rfl, rfl⟩⟩
    simp [hnone (a, x) (by simp)] at hx

/-! ## Creating and shutting down -/

/-- The logger `get_mlogger` sets up, before its `setloggertype`. -/
def freshLogger (type : LoggerType) (severity : LogSeverity) (logtime : LogTime) (h : Int) : Mlog :=
  ⟨type, severity, logtime, h, none, none, none⟩

def newLogger (type : LoggerType) (severity : LogSeverity) (logtime : LogTime) (h : Int) : Mlog :=
  retarget type none (.error "") (freshLogger type severity logtime h)

theorem newLogger_handle (type : LoggerType) (severity : LogSeverity) (logtime : LogTime) (h : Int) :
    (newLogger type severity logtime h).handle = h := retarget_handle _ _ _ _

theorem Registered.add (hr : Registered g nodes) {heap : Store Mlog} {start : Ptr} {a : Nat}
    {x : Mlog}
    (hlist : IsList heap start (nodes ++ [(a, x)])) (hx : x.handle = g.nextHandle)
    (hmax : g.nextHandle + 1 ≤ intMax) :
    Registered { g with
      heap := heap
      mloggers := start
      nextHandle := g.nextHandle + 1
      nloggers := g.nloggers + 1
      gHandle := if g.gHandle < 0 then 0 else g.gHandle } (nodes ++ [(a, x)]) := by
  have hcount := hr.count
  have hfew := hr.few
  have hhandles : handles (nodes ++ [(a, x)]) = handles nodes ++ [g.nextHandle] := by
    simp [handles, hx]
  unfold intMax at hmax
  refine ⟨hlist, ?_, ?_, ?_, ?_, by unfold intMax; exact hmax, ?_⟩
  · rw [UInt32.toNat_add, hcount, List.length_append, List.length_singleton,
      show (1 : UInt32).toNat = 1 from rfl]
    omega
  · simp only [List.length_append, List.length_singleton]
    push_cast
    omega
  · rw [hhandles, List.pairwise_append]
    refine ⟨hr.sorted, List.pairwise_singleton _ _, fun k hk m hm => ?_⟩
    rw [List.mem_singleton.mp hm]
    exact (hr.range k hk).2
  · intro k hk
    rw [hhandles, List.mem_append, List.mem_singleton] at hk
    simp only
    rcases hk with hk | rfl
    · have := hr.range k hk
      omega
    · omega
  · have hdefault := hr.default
    simp only [List.append_eq_nil_iff, List.cons_ne_nil, and_false, if_false]
    split at hdefault <;> simp [hdefault]

theorem Registered.notMem (hr : Registered g nodes) {a : Nat} (hfresh : g.heap a = none) :
    a ∉ nodes.map Prod.fst := by
  intro hmem
  obtain ⟨⟨b, y⟩, hc, rfl⟩ := List.mem_map.mp hmem
  obtain ⟨n, hb⟩ := hr.list.cell hc
  rw [hfresh] at hb
  cases hb

theorem getMlogger_spec (hr : Registered g nodes) (hf : nodes.length + 1 < fuel) {a : Nat}
    (hnew : a ∉ nodes.map Prod.fst) (hmax : g.nextHandle + 1 ≤ intMax) (type : LoggerType)
    (severity : LogSeverity) (logtime : LogTime) :
    ∃ g' out, getMlogger fuel (some a) type severity logtime g = .ok (g', g.nextHandle, out) ∧
      Registered g' (nodes ++ [(a, newLogger type severity logtime g.nextHandle)]) ∧
      g'.nextHandle = g.nextHandle + 1 ∧ g'.openFiles = g.openFiles := by
  let x := freshLogger type severity logtime g.nextHandle
  let g₁ : Globals := { g with
    heap := Function.update g.heap a (some ⟨x, none⟩)
    nextHandle := g.nextHandle + 1
    nloggers := g.nloggers + 1 }
  obtain ⟨v, hadd, hlist, _⟩ := mlinkedListAdd_spec (v := { g₁.vars with current := g.mloggers })
    (b := a) (y := x)
    (hr.list.update hnew _) (Function.update_self _ _ _) hnew (show nodes.length < fuel by omega)
  have hr₁ := hr.add hlist rfl hmax
  obtain ⟨heap, files, value, out, hset, hr₂, _, hlive⟩ := setloggertype_spec hr₁
    (show (nodes ++ [(a, x)]).length < fuel by simpa using hf) g.nextHandle type none (.error "")
  have hself : mloggerCheck g.nextHandle x = true := by simp [x, mloggerCheck, freshLogger]
  refine ⟨{ g with
      heap := heap
      mloggers := v.start
      nextHandle := g.nextHandle + 1
      nloggers := g.nloggers + 1
      gHandle := if g.gHandle < 0 then 0 else g.gHandle
      openFiles := files }, out, ?_, ?_, rfl, ?_⟩
  · simp only [getMlogger, Outcome.require_of hmax, Outcome.ok_bind]
    exact Outcome.bind_eq_ok.mpr ⟨v, hadd, Outcome.bind_eq_ok.mpr ⟨_, hset, rfl⟩⟩
  · -- the handle is the new logger's alone
    have hothers : ∀ c ∈ nodes, mloggerCheck g.nextHandle c.2 = false := fun c hc => by
      have := (hr.range c.2.handle (List.mem_map_of_mem hc)).2
      simp [mloggerCheck, Int.ne_of_lt this]
    rwa [modify_middle hself hothers (by simp)] at hr₂
  · have hfiles : files = opened type none (.error "") ++ g.openFiles :=
      (hlive ⟨(a, x), List.mem_append_right nodes List.mem_cons_self, hself⟩).2
    rwa [opened_noPath] at hfiles

def remove (h : Int) (nodes : Loggers) : Loggers := nodes.filter fun c => !mloggerCheck h c.2

theorem remove_none (hnone : ∀ c ∈ nodes, mloggerCheck h c.2 = false) : remove h nodes = nodes :=
  List.filter_eq_self.mpr fun c hc => by simp [hnone c hc]

theorem remove_middle {pre post : Loggers} {a : Nat} {x : Mlog} (hx : mloggerCheck h x = true)
    (hpre : ∀ c ∈ pre, mloggerCheck h c.2 = false) (hpost : ∀ c ∈ post, mloggerCheck h c.2 = false) :
    remove h (pre ++ (a, x) :: post) = pre ++ post := by
  have h1 := remove_none hpre
  have h2 := remove_none hpost
  unfold remove at h1 h2 ⊢
  rw [List.filter_append, List.filter_cons_of_neg (by simp [hx]), h1, h2]

theorem toNat_sub_one {n : UInt32} {k : Nat} (h : n.toNat = k + 1) : (n - 1).toNat = k := by
  rw [UInt32.toNat_sub_of_le _ _ (by rw [UInt32.le_iff_toNat_le, h]; exact Nat.le_add_left 1 k), h]
  rfl

theorem Registered.unlink {pre post : Loggers} {a : Nat} {x : Mlog}
    (hr : Registered g (pre ++ (a, x) :: post)) {heap : Store Mlog} {start : Ptr}
    (hlist : IsList heap start (pre ++ post)) :
    Registered { g with
      heap := heap
      mloggers := start
      nloggers := g.nloggers - 1
      gHandle := if g.nloggers - 1 = 0 then -1 else g.gHandle } (pre ++ post) := by
  have hcount := hr.count
  have hfew := hr.few
  have hsub : List.Sublist (handles (pre ++ post)) (handles (pre ++ (a, x) :: post)) :=
    ((List.Sublist.refl pre).append (List.sublist_cons_self (a, x) post)).map _
  simp only [List.length_append, List.length_cons] at hcount hfew
  have hless : (g.nloggers - 1).toNat = (pre ++ post).length :=
    toNat_sub_one (by rw [hcount, List.length_append]; omega)
  refine ⟨hlist, hless, ?_, hr.sorted.sublist hsub, fun k hk => hr.range k (hsub.subset hk),
    hr.next, ?_⟩
  · simp only [List.length_append]
    push_cast at hfew ⊢
    omega
  · have hdefault := hr.default
    have hzero : g.nloggers - 1 = 0 ↔ pre ++ post = [] := by
      rw [← UInt32.toNat_inj, hless, ← List.length_eq_zero_iff]
      rfl
    rw [if_neg (by simp)] at hdefault
    simp only [hzero, hdefault]

/-- What the list macro of `shutdown_mlogger` does: nothing without a logger of the handle; else
its node is off the list, still allocated. -/
theorem unlinkLogger_spec (hr : Registered g nodes) (hf : nodes.length < fuel) (h : Int) :
    ∃ v, mlinkedListRemove mloggerCheck fuel h g.vars = .ok v ∧
      ((∀ c ∈ nodes, mloggerCheck h c.2 = false) ∧ v.freenode = none ∧ v.heap = g.heap ∧
          v.start = g.mloggers ∨
        ∃ pre a x post c, nodes = pre ++ (a, x) :: post ∧ mloggerCheck h x = true ∧
          remove h nodes = pre ++ post ∧ v.freenode = some a ∧ v.heap a = some c ∧
          a ∉ (pre ++ post).map Prod.fst ∧ IsList v.heap v.start (pre ++ post)) := by
  rcases hr.cases h with hnone | ⟨pre, a, x, post, rfl, hx, hpre, hpost⟩
  · have hok : RemoveOk mloggerCheck h g.vars.previous nodes := by
      cases nodes with
      | nil => trivial
      | cons c rest => exact .inl (hnone c List.mem_cons_self)
    obtain ⟨v, hv, _, hfree, _, hsame⟩ := mlinkedListRemove_spec (v := g.vars) hr.list hf hok
    have hfilter : nodes.filter (fun c => mloggerCheck h c.2) = [] :=
      List.filter_eq_nil_iff.mpr fun c hc => by simp [hnone c hc]
    obtain ⟨hheap, hstart⟩ := hsame hnone
    rw [hfilter] at hfree
    exact ⟨v, hv, .inl ⟨hnone, hfree, hheap, hstart⟩⟩
  · have hok : RemoveOk mloggerCheck h g.vars.previous (pre ++ (a, x) :: post) := by
      cases pre with
      | nil => exact .inr ⟨rfl, fun d hd => hpost d (List.mem_of_mem_head? hd)⟩
      | cons c rest => exact .inl (hpre c List.mem_cons_self)
    obtain ⟨v, hv, hlist, hfree, hsame, _⟩ := mlinkedListRemove_spec (v := g.vars) hr.list hf hok
    have hfilter : (pre ++ (a, x) :: post).filter (fun c => mloggerCheck h c.2) = [(a, x)] := by
      have h1 : pre.filter (fun c => mloggerCheck h c.2) = [] :=
        List.filter_eq_nil_iff.mpr fun c hc => by simp [hpre c hc]
      have h2 : post.filter (fun c => mloggerCheck h c.2) = [] :=
        List.filter_eq_nil_iff.mpr fun c hc => by simp [hpost c hc]
      simp [List.filter_append, hx, h1, h2]
    have hfree : v.freenode = some a := by rw [hfree, hfilter]; rfl
    change IsList v.heap v.start (remove h _) at hlist
    rw [remove_middle hx hpre hpost] at hlist
    -- the node is still there to be freed, and not on the list any more
    obtain ⟨n, ha⟩ := hr.list.middle
    have hthere : ∃ c, v.heap a = some c := Option.ne_none_iff_exists'.mp fun hno => by
      rw [hsame.none_iff] at hno
      exact absurd (ha.symm.trans hno) (by simp)
    obtain ⟨c, hc⟩ := hthere
    have hout : a ∉ (pre ++ post).map Prod.fst := by
      obtain ⟨h1, h2⟩ := hr.list.middle_notMem
      simp only [List.map_append, List.mem_append, not_or]
      exact ⟨h1, h2⟩
    exact ⟨v, hv, .inr ⟨pre, a, x, post, c, rfl, hx, remove_middle hx hpre hpost, hfree, hc, hout,
      hlist⟩⟩

theorem shutdownMlogger_spec (hr : Registered g nodes) (hf : nodes.length < fuel) (h : Int) :
    ∃ g' r, shutdownMlogger fuel h g = .ok (g', r) ∧ Registered g' (remove h nodes) ∧
      g'.nextHandle = g.nextHandle ∧ g'.openFiles = g.openFiles ∧
      ((∀ c ∈ nodes, mloggerCheck h c.2 = false) → g' = g ∧ r = 0) ∧
      ((∃ c ∈ nodes, mloggerCheck h c.2 = true) → r = 1) := by
  obtain ⟨v, hv, ⟨hnone, hfree, hheap, hstart⟩ |
    ⟨pre, a, x, post, c, rfl, hx, hremove, hfree, hc, hout, hlist⟩⟩ := unlinkLogger_spec hr hf h
  · refine ⟨g, 0, ?_, by rwa [remove_none hnone], rfl, rfl, fun _ => ⟨rfl, rfl⟩,
      fun ⟨c, hc, hx⟩ => ?_⟩
    · simp only [shutdownMlogger, hv, Outcome.ok_bind, hfree, if_true, hheap, hstart]
      rfl
    · simp [hnone c hc] at hx
  · rw [hremove]
    refine ⟨_, 1, ?_, hr.unlink (hlist.update hout none), rfl, rfl, fun hnone => ?_, fun _ => rfl⟩
    · simp [shutdownMlogger, hv, hfree, freeNode, Store.load_of hc]
    · simp [hnone (a, x) (by simp)] at hx

/-- A round of the loop of `shutdown_all_mloggers` frees the node it has just left. -/
theorem freeRound_spec {v : FreeVars} {c : Nat × Mlog} {l : Loggers}
    (hl : IsList v.heap v.current (c :: l)) (hp : v.previous = v.current)
    (hn : v.nloggers.toNat = l.length + 1) : v.current = some c.1 ∧
    ∃ w, freeRound v = .ok w ∧ IsList w.heap w.current l ∧ w.previous = w.current ∧
      w.nloggers.toNat = l.length := by
  obtain ⟨a, x⟩ := c
  have hnodup := hl.nodup
  rw [List.map_cons, List.nodup_cons] at hnodup
  obtain ⟨hc, n, ha, hrest⟩ := IsList.cons_iff.mp hl
  refine ⟨hc, ⟨Function.update v.heap a none, n, n, v.nloggers - 1⟩, ?_,
    hrest.update hnodup.1 none, rfl, toNat_sub_one hn⟩
  simp [freeRound, hp, hc, Store.load_of ha, freeNode]

theorem freeLoop_spec (l : Loggers) : ∀ (fuel : Nat) (v : FreeVars), IsList v.heap v.current l →
    v.previous = v.current → v.nloggers.toNat = l.length → l.length < fuel →
    ∃ heap, whileLoop (fun v => return decide (v.current ≠ none)) freeRound fuel v =
      .ok ⟨heap, none, none, 0⟩ := by
  induction l with
  | nil =>
    intro fuel v hl hp hn hf
    obtain ⟨fuel, rfl⟩ : ∃ k, fuel = k + 1 := ⟨fuel - 1, by omega⟩
    have hc := IsList.nil_iff.mp hl
    have h0 : v.nloggers = 0 := UInt32.toNat_inj.mp hn
    exact ⟨v.heap, by rw [whileLoop_exit (by simp [hc])]; cases v; simp_all⟩
  | cons c l ih =>
    intro fuel v hl hp hn hf
    obtain ⟨fuel, rfl⟩ : ∃ k, fuel = k + 1 := ⟨fuel - 1, by omega⟩
    obtain ⟨hc, w, hround, hl', hp', hn'⟩ := freeRound_spec hl hp hn
    obtain ⟨heap, hrun⟩ := ih fuel w hl' hp' hn' (Nat.lt_of_succ_lt_succ hf)
    exact ⟨heap, by rw [whileLoop_round (by simp [hc]) hround, hrun]⟩

theorem shutdownAllMloggers_spec (hr : Registered g nodes) (hf : nodes.length < fuel) :
    ∃ g', shutdownAllMloggers fuel g = .ok g' ∧ Registered g' [] ∧
      g'.nextHandle = g.nextHandle ∧ g'.openFiles = g.openFiles := by
  obtain ⟨heap, hrun⟩ := freeLoop_spec nodes fuel
    ⟨g.heap, g.mloggers, g.mloggers, g.nloggers⟩ hr.list rfl
    hr.count hf
  have hfew := hr.few
  refine ⟨{ g with heap := heap, nloggers := 0, gHandle := -1, mloggers := none }, ?_,
    ⟨.nil none, rfl, ?_, List.Pairwise.nil, by simp [handles], hr.next, rfl⟩, rfl, rfl⟩
  · simp only [shutdownAllMloggers]
    rw [hrun]
    rfl
  · simp only [List.length_nil]; omega

end Mikelibc.Log
