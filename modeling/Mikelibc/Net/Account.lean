import Mathlib.Data.Finset.Card
import Mikelibc.Net.Atomic

/-! # The descriptors of a program that sets sockets up again and again

A program calls the four functions, keeps the descriptors that it is given and closes
some of them. What else is open stays open for good: one descriptor for every call that
failed after it had its socket, and for every server that was given descriptor 0
(`descriptors_account`). -/
namespace Mikelibc.Net
open CSem

/-! ## The program -/

/-- A call of one of the functions. What the system calls in it give may depend on the open
descriptors. -/
inductive Setup where
  | udpServer (calls : ∀ fds, ServerCalls fds)
  | tcpServer (calls : ∀ fds, ServerCalls fds)
  | tcpClient (getaddrinfo : ∀ fds, Except String (List (Candidate fds)))
  | nixStreamingClient (calls : ∀ fds, Candidate fds) (sockpath : CString)

def Setup.run (p : Process) : Setup → Outcome (Process × Int)
  | .udpServer calls => return setupUdpServer p (calls p.fds)
  | .tcpServer calls => return setupTcpServer p (calls p.fds)
  | .tcpClient getaddrinfo => return connectTcpClient p (getaddrinfo p.fds)
  | .nixStreamingClient calls sockpath => connectNixStreamingClient p (calls p.fds) sockpath

def Setup.error : Setup → Int
  | .udpServer _ | .tcpServer _ => 0
  | .tcpClient _ | .nixStreamingClient .. => -1

/-- A process and the descriptors that it has been given and not closed, the last one first. -/
structure Program where
  process : Process
  held : List Nat

inductive Op where
  | setup (f : Setup)
  | close (i : Nat)

/-- The program takes any value but the error value for a descriptor, and closes only what it
has been given. -/
def step (s : Program) : Op → Outcome (Program × Int)
  | .setup f => do
    let (p, value) ← f.run s.process
    return (⟨p, if value = f.error then s.held else value.toNat :: s.held⟩, value)
  | .close i =>
    match s.held[i]? with
    | none => return (s, -1)
    | some fd =>
      return (⟨{ s.process with fds := s.process.fds.erase fd }, s.held.eraseIdx i⟩, 0)

/-! ## What is lost -/

/-- The server gets a socket and does not return it, or returns it as 0. -/
def ServerCalls.loses {fds : Finset Nat} (calls : ServerCalls fds) (listens : Bool) : Bool :=
  match calls.socket with
  | .error _ => false
  | .ok fd => decide (fd.1 = 0) || decide (calls.inetAddr = inaddrNone) || !calls.bind.isOk ||
      listens && !calls.listen.isOk

/-- The client gets a socket that does not connect. -/
def Candidate.loses {fds : Finset Nat} (c : Candidate fds) : Bool :=
  c.socket.isOk && !c.connect.isOk

/-- The call opens a descriptor that nobody knows of. -/
def Setup.loses (fds : Finset Nat) : Setup → Bool
  | .udpServer calls => (calls fds).loses false
  | .tcpServer calls => (calls fds).loses true
  | .tcpClient getaddrinfo =>
    match getaddrinfo fds with
    | .error _ => false
    | .ok infop => (infop.find? fun c => c.socket.isOk).any Candidate.loses
  | .nixStreamingClient calls _ => (calls fds).loses

def Op.loses (fds : Finset Nat) : Op → Bool
  | .setup f => f.loses fds
  | .close _ => false

/-- What a call makes of the descriptors `fds` that are open. -/
inductive Result (fds : Finset Nat) (error : Int) (loses : Bool) : Process × Int → Prop
  | nothing {p} : p.fds = fds → loses = false → Result fds error loses (p, error)
  | returned {p} {fd : Nat} : fd ∉ fds → p.fds = insert fd fds → (fd : Int) ≠ error →
      loses = false → Result fds error loses (p, fd)
  | lost {p} {fd : Nat} : fd ∉ fds → p.fds = insert fd fds → loses = true →
      Result fds error loses (p, error)

variable {p p' : Process}

@[simp] theorem isOk_ok {α : Type} (a : α) : (.ok a : Except String α).isOk = true := rfl
@[simp] theorem isOk_error {α : Type} (e : String) : (.error e : Except String α).isOk = false := rfl

/-- A socket that has been opened is returned, unless a later call fails. -/
theorem Result.opened {error : Int} {loses : Bool} (fd : NewFd p.fds) (fails : Bool)
    (hfds : p'.fds = insert fd.1 p.fds) (hloses : loses = (decide ((fd.1 : Int) = error) || fails)) :
    Result p.fds error loses (p', if fails then error else fd.1) := by
  cases fails with
  | true => exact .lost fd.2 hfds (by simp [hloses])
  | false =>
    by_cases herror : (fd.1 : Int) = error
    · rw [if_neg Bool.false_ne_true, herror]
      exact .lost fd.2 hfds (by simp [hloses, herror])
    · exact .returned fd.2 hfds herror (by simp [hloses, herror])

theorem setupUdpServer_result (calls : ServerCalls p.fds) :
    Result p.fds 0 (calls.loses false) (setupUdpServer p calls) := by
  unfold setupUdpServer ServerCalls.loses
  cases hsocket : calls.socket with
  | error e => exact .nothing rfl rfl
  | ok fd =>
    by_cases haddr : calls.inetAddr = inaddrNone
    · simp only [haddr, if_true]
      exact .opened fd true (by simp) (by simp)
    · simp only [haddr, if_false]
      cases calls.bind with
      | error e => exact .opened fd true (by simp) (by simp)
      | ok u => exact .opened fd false (by simp) (by simp)

theorem setupTcpServer_result (calls : ServerCalls p.fds) :
    Result p.fds 0 (calls.loses true) (setupTcpServer p calls) := by
  unfold setupTcpServer ServerCalls.loses
  cases hsocket : calls.socket with
  | error e => exact .nothing rfl rfl
  | ok fd =>
    by_cases haddr : calls.inetAddr = inaddrNone
    · simp only [haddr, if_true]
      exact .opened fd true (by simp) (by simp)
    · simp only [haddr, if_false]
      cases calls.bind with
      | error e => exact .opened fd true (by simp) (by simp)
      | ok u =>
        cases calls.listen with
        | error e => exact .opened fd true (by simp) (by simp)
        | ok u => exact .opened fd false (by simp) (by simp)

/-- A socket of a client, and whether it connects. -/
theorem Candidate.result (c : Candidate p.fds) {fd : NewFd p.fds} (hsocket : c.socket = .ok fd)
    (p' : Process) (hfds : p'.fds = insert fd.1 p.fds) :
    Result p.fds (-1) c.loses (p', if c.connect.isOk then fd.1 else -1) := by
  have hopened : Result p.fds (-1) c.loses (p', if !c.connect.isOk then -1 else (fd.1 : Int)) :=
    .opened fd _ hfds (by simp [loses, hsocket, natCast_ne_neg_one])
  cases hconnect : c.connect.isOk <;> simpa [hconnect] using hopened

theorem connectAny_result (infop : List (Candidate p.fds)) : ∀ said : List String,
    Result p.fds (-1) ((infop.find? fun c => c.socket.isOk).any Candidate.loses)
      (connectAny p infop said) := by
  induction infop with
  | nil => intro said; exact .nothing rfl rfl
  | cons current rest ih =>
    intro said
    unfold connectAny
    cases hsocket : current.socket with
    | error e =>
      rw [List.find?_cons_of_neg (by simp [hsocket])]
      exact ih _
    | ok clientfd =>
      rw [List.find?_cons_of_pos (by simp [hsocket])]
      cases hconnect : current.connect with
      | error e => simpa [hconnect] using current.result hsocket (.perror _ "connect" e) (by simp)
      | ok u => simpa [hconnect] using current.result hsocket _ (by simp)

/-- Every call returns the error value and leaves the descriptors as they were, or returns a new one;
or the new one is lost. -/
theorem Setup.run_result {f : Setup} {r : Process × Int} (h : f.run p = .ok r) :
    Result p.fds f.error (f.loses p.fds) r := by
  cases f with
  | udpServer calls =>
    rw [← Outcome.ok.inj h]
    exact setupUdpServer_result _
  | tcpServer calls =>
    rw [← Outcome.ok.inj h]
    exact setupTcpServer_result _
  | tcpClient getaddrinfo =>
    rw [← Outcome.ok.inj h]
    simp only [connectTcpClient, Setup.loses]
    cases getaddrinfo p.fds with
    | error e => exact .nothing rfl rfl
    | ok infop => exact connectAny_result infop []
  | nixStreamingClient calls sockpath =>
    change connectNixStreamingClient p (calls p.fds) sockpath = .ok r at h
    change Result p.fds (-1) (calls p.fds).loses r
    unfold connectNixStreamingClient at h
    cases hsocket : (calls p.fds).socket with
    | error e =>
      simp only [hsocket] at h
      rw [← Outcome.ok.inj h]
      exact .nothing rfl (by simp [Candidate.loses, hsocket])
    | ok fd =>
      simp only [hsocket] at h
      obtain ⟨_, _, h⟩ := Outcome.bind_eq_ok.mp h
      cases hconnect : (calls p.fds).connect with
      | error e =>
        simp only [hconnect] at h
        rw [← Outcome.ok.inj h]
        simpa [hconnect] using
          (calls p.fds).result hsocket ((p.opens fd.1).perror "connect" e) (by simp)
      | ok u =>
        simp only [hconnect] at h
        rw [← Outcome.ok.inj h]
        simpa [hconnect] using (calls p.fds).result hsocket (p.opens fd.1) (by simp)

/-! ## The account -/

/-- `base` is what was open at the start, and so many descriptors have been lost since. -/
structure Account (base : Finset Nat) (s : Program) (lost : Nat) : Prop where
  nodup : s.held.Nodup
  held : ∀ fd ∈ s.held, fd ∈ s.process.fds ∧ fd ∉ base
  kept : base ⊆ s.process.fds
  count : s.process.fds.card = base.card + s.held.length + lost

variable {base : Finset Nat} {s s' : Program} {lost : Nat} {value : Int}

theorem Account.start (p : Process) : Account p.fds ⟨p, []⟩ 0 :=
  ⟨.nil, nofun, subset_rfl, rfl⟩

theorem Account.setup (h : Account base s lost) {f : Setup}
    (hs : step s (.setup f) = .ok (s', value)) :
    Account base s' (lost + (f.loses s.process.fds).toNat) := by
  obtain ⟨⟨p, value'⟩, hrun, hs⟩ := Outcome.bind_eq_ok.mp hs
  cases hs
  cases Setup.run_result hrun with
  | nothing hfds hloses =>
    rw [if_pos rfl, hloses]
    exact ⟨h.nodup, by rw [hfds]; exact h.held, by rw [hfds]; exact h.kept,
      by rw [hfds]; exact h.count⟩
  | @returned _ fd hnew hfds hne hloses =>
    rw [if_neg hne, hloses, Int.toNat_natCast]
    refine ⟨List.nodup_cons.mpr ⟨fun hin => hnew (h.held fd hin).1, h.nodup⟩,
      List.forall_mem_cons.mpr ⟨?_, fun fd' hin => ?_⟩, ?_, ?_⟩
    · rw [hfds]
      exact ⟨Finset.mem_insert_self _ _, fun hin => hnew (h.kept hin)⟩
    · rw [hfds]
      exact ⟨Finset.mem_insert_of_mem (h.held fd' hin).1, (h.held fd' hin).2⟩
    · rw [hfds]
      exact h.kept.trans (Finset.subset_insert _ _)
    · have hcount := h.count
      rw [hfds, Finset.card_insert_of_notMem hnew, List.length_cons, Bool.toNat_false]
      omega
  | @lost _ fd hnew hfds hloses =>
    rw [if_pos rfl, hloses]
    refine ⟨h.nodup, fun fd' hin => ?_, ?_, ?_⟩
    · rw [hfds]
      exact ⟨Finset.mem_insert_of_mem (h.held fd' hin).1, (h.held fd' hin).2⟩
    · rw [hfds]
      exact h.kept.trans (Finset.subset_insert _ _)
    · have hcount := h.count
      rw [hfds, Finset.card_insert_of_notMem hnew, Bool.toNat_true]
      simp only
      omega

theorem Account.close (h : Account base s lost) {i : Nat}
    (hs : step s (.close i) = .ok (s', value)) : Account base s' lost := by
  simp only [step] at hs
  split at hs
  · cases hs
    exact h
  · next fd hfd =>
    cases hs
    obtain ⟨hi, hget⟩ := List.getElem?_eq_some_iff.mp hfd
    have hperm : (fd :: s.held.eraseIdx i).Perm s.held := hget ▸ List.getElem_cons_eraseIdx_perm hi
    obtain ⟨hout, hnodup⟩ := List.nodup_cons.mp (hperm.nodup_iff.mpr h.nodup)
    obtain ⟨hopen, hnew⟩ := h.held fd (hperm.subset List.mem_cons_self)
    refine ⟨hnodup, fun fd' hin => ?_, fun fd' hin => ?_, ?_⟩
    · have hheld := h.held fd' (hperm.subset (List.mem_cons_of_mem _ hin))
      exact ⟨Finset.mem_erase.mpr ⟨fun heq => hout (heq ▸ hin), hheld.1⟩, hheld.2⟩
    · exact Finset.mem_erase.mpr ⟨fun heq => hnew (heq ▸ hin), h.kept hin⟩
    · have hcount := h.count
      have hcard := Finset.card_erase_add_one hopen
      have hlength := hperm.length_eq
      rw [List.length_cons] at hlength
      simp only
      omega

theorem Account.step (h : Account base s lost) {op : Op} (hs : step s op = .ok (s', value)) :
    Account base s' (lost + (op.loses s.process.fds).toNat) := by
  cases op with
  | setup f => exact h.setup hs
  | close i => exact h.close hs

def Loses (q : Program × Op) : Bool := q.2.loses q.1.process.fds

theorem Account.run : ∀ {ops : List Op} {s s' : Program} {lost : Nat} {values : List Int},
    Account base s lost → runOps Net.step s ops = .ok (s', values) →
    Account base s' (lost + (completed Net.step s ops).countP Loses) := by
  intro ops
  induction ops with
  | nil => intro s s' lost values h hrun; cases hrun; exact h
  | cons op ops ih =>
    intro s s' lost values h hrun
    obtain ⟨⟨t, value⟩, ht, hrun⟩ := Outcome.bind_eq_ok.mp hrun
    obtain ⟨⟨t', values⟩, ht', hrun⟩ := Outcome.bind_eq_ok.mp hrun
    cases hrun
    have hall := ih (h.step ht) ht'
    rw [completed_cons_ok ht, List.countP_cons]
    cases hloses : op.loses s.process.fds <;>
      simpa [Loses, hloses, Nat.add_assoc, Nat.add_comm 1] using hall

/-- What the program cannot account for has been lost. -/
theorem Account.all_iff (h : Account base s lost) :
    s.process.fds = base ∪ s.held.toFinset ↔ lost = 0 := by
  have hcard : (base ∪ s.held.toFinset).card = base.card + s.held.length := by
    rw [Finset.card_union_of_disjoint (Finset.disjoint_right.mpr fun fd hin =>
      (h.held fd (List.mem_toFinset.mp hin)).2), List.toFinset_card_of_nodup h.nodup]
  have hsub : base ∪ s.held.toFinset ⊆ s.process.fds :=
    Finset.union_subset h.kept fun fd hin => (h.held fd (List.mem_toFinset.mp hin)).1
  have hcount := h.count
  constructor
  · intro heq
    rw [heq, hcard] at hcount
    omega
  · intro hzero
    exact (Finset.eq_of_subset_of_card_le hsub (by omega)).symm

/-- **Where the descriptors go.** After any sequence of calls, as many descriptors are open as there
were at the start and as the program holds, and one for each call that got a socket and failed or
returned it as the error value 0. So the program can close all that the library has opened exactly
if there was no such call. -/
theorem descriptors_account {p : Process} {ops : List Op} {values : List Int}
    (hrun : runOps step ⟨p, []⟩ ops = .ok (s, values)) :
    s.process.fds.card = p.fds.card + s.held.length +
      (completed step ⟨p, []⟩ ops).countP Loses ∧
    (∀ fd ∈ s.held, fd ∈ s.process.fds ∧ fd ∉ p.fds) ∧
    (s.process.fds = p.fds ∪ s.held.toFinset ↔
      ∀ q ∈ completed step ⟨p, []⟩ ops, Loses q = false) := by
  have h := (Account.start p).run hrun
  rw [Nat.zero_add] at h
  refine ⟨h.count, h.held, h.all_iff.trans ?_⟩
  rw [List.countP_eq_zero]
  simp only [Bool.not_eq_true]

/-- `socket` returns this descriptor, if it is not open. -/
def granted (fd : Nat) (fds : Finset Nat) : Except String (NewFd fds) :=
  if h : fd ∉ fds then .ok ⟨fd, h⟩ else .error "Too many open files"

/-- A server, a client, a server for an address that is taken, and the client is closed. -/
def fourCalls : List Op :=
  [.setup (.udpServer fun fds => ⟨granted 3 fds, .ok (), .ok (), 0, .ok (), .ok ()⟩),
    .setup (.tcpClient fun fds => .ok [⟨granted 3 fds, .ok ()⟩, ⟨granted 4 fds, .ok ()⟩]),
    .setup (.tcpServer fun fds =>
      ⟨granted 5 fds, .ok (), .ok (), 0, .error "Address already in use", .ok ()⟩),
    .close 0]

theorem descriptors_account_four : ∃ s values,
    runOps step ⟨⟨{0, 1, 2}, []⟩, []⟩ fourCalls = .ok (s, values) ∧ values = [3, 4, 0, 0] ∧
      s.held = [3] ∧ s.process.fds.card = 5 ∧ s.process.fds ≠ {0, 1, 2} ∪ s.held.toFinset := by
  obtain ⟨⟨s, values⟩, hrun, h⟩ := Outcome.any_eq_true.mp (by decide +kernel :
    (runOps step ⟨⟨{0, 1, 2}, []⟩, []⟩ fourCalls).any (fun q =>
      decide (q.2 = [3, 4, 0, 0] ∧ q.1.held = [3])) = true)
  obtain ⟨hvalues, hheld⟩ := of_decide_eq_true h
  have hone : (completed step ⟨⟨{0, 1, 2}, []⟩, []⟩ fourCalls).countP Loses = 1 := by
    decide +kernel
  obtain ⟨hcard, _, hall⟩ := descriptors_account hrun
  refine ⟨s, values, hrun, hvalues, hheld, by rw [hcard, hone, hheld]; rfl, fun heq => ?_⟩
  have hnone := List.countP_eq_zero.mpr fun q hq => Bool.eq_false_iff.mp (hall.mp heq q hq)
  rw [hone] at hnone
  cases hnone

end Mikelibc.Net
