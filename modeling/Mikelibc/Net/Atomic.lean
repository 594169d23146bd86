import Mikelibc.Net.Code

/-! # Descriptors left behind by a failed set-up

A function that fails should leave the open descriptors as they were, and one that
succeeds should add the one it returns. None of the four closes the socket it has
opened when a later call fails, and the servers cannot tell their error value 0 from
descriptor 0. `setup_atomic_iff` says for each of them when it does as it should. -/
namespace Mikelibc.Net
open CSem

/-- With the error value nothing has been opened; with any other value exactly the descriptor
that it is. -/
def Atomic (before : Finset Nat) (error : Int) (result : Outcome (Process × Int)) : Prop :=
  ∃ p value, result = .ok (p, value) ∧
    if value = error then p.fds = before
    else ∃ fd : Nat, value = fd ∧ fd ∉ before ∧ p.fds = insert fd before

def Ok {α : Type} (result : Except String α) : Prop := result.isOk = true

instance {α : Type} (result : Except String α) : Decidable (Ok result) :=
  inferInstanceAs (Decidable (_ = _))

variable {p : Process}

@[simp] theorem ok_ok {α : Type} (a : α) : Ok (.ok a : Except String α) := rfl
@[simp] theorem not_ok_error {α : Type} (e : String) : ¬ Ok (.error e : Except String α) :=
  Bool.false_ne_true

@[simp] theorem setOptions_fds {fds : Finset Nat} (calls : ServerCalls fds) (p : Process) :
    (setOptions calls p).fds = p.fds := by
  unfold setOptions
  split
  · rfl
  · split <;> rfl

theorem atomic_nothing {error : Int} {p' : Process} (h : p'.fds = p.fds) :
    Atomic p.fds error (.ok (p', error)) :=
  ⟨p', error, rfl, by rw [if_pos rfl]; exact h⟩

/-- The descriptor that has been opened is returned: right unless it is the error value. -/
theorem atomic_opened {error : Int} {p' : Process} (fd : NewFd p.fds)
    (h : p'.fds = insert fd.1 p.fds) :
    Atomic p.fds error (.ok (p', fd.1)) ↔ (fd.1 : Int) ≠ error := by
  have hnew : insert fd.1 p.fds ≠ p.fds := Finset.insert_ne_self.mpr fd.2
  constructor
  · intro hatomic herror
    obtain ⟨q, value, hq, hfds⟩ := hatomic
    cases hq
    rw [if_pos herror, h] at hfds
    exact hnew hfds
  · intro hne
    exact ⟨p', fd.1, rfl, by rw [if_neg hne]; exact ⟨fd.1, rfl, fd.2, h⟩⟩

/-- A descriptor has been opened, and the error value is returned. -/
theorem not_atomic_leak {error : Int} {p' : Process} (fd : NewFd p.fds)
    (h : p'.fds = insert fd.1 p.fds) : ¬ Atomic p.fds error (.ok (p', error)) := by
  intro hatomic
  obtain ⟨q, value, hq, hfds⟩ := hatomic
  cases hq
  rw [if_pos rfl, h] at hfds
  exact Finset.insert_ne_self.mpr fd.2 hfds

/-! ## The four functions -/

theorem setupUdpServer_atomic_iff (calls : ServerCalls p.fds) :
    Atomic p.fds 0 (.ok (setupUdpServer p calls)) ↔
      ∀ fd, calls.socket = .ok fd →
        (fd.1 : Int) ≠ 0 ∧ calls.inetAddr ≠ inaddrNone ∧ Ok calls.bind := by
  unfold setupUdpServer
  cases hsocket : calls.socket with
  | error e => exact iff_of_true (atomic_nothing rfl) fun fd h => by cases h
  | ok fd =>
    simp only [Except.ok.injEq, forall_eq']
    by_cases haddr : calls.inetAddr = inaddrNone
    · simp only [haddr, if_true, ne_eq, not_true_eq_false, false_and, and_false, iff_false]
      exact not_atomic_leak fd (by simp)
    · rw [if_neg haddr]
      cases hbind : calls.bind with
      | error e => exact iff_of_false (not_atomic_leak fd (by simp)) fun h => not_ok_error e h.2.2
      | ok _ => exact (atomic_opened fd (by simp)).trans ⟨fun h => ⟨h, haddr, rfl⟩, fun h => h.1⟩

theorem setupTcpServer_atomic_iff (calls : ServerCalls p.fds) :
    Atomic p.fds 0 (.ok (setupTcpServer p calls)) ↔
      ∀ fd, calls.socket = .ok fd →
        (fd.1 : Int) ≠ 0 ∧ calls.inetAddr ≠ inaddrNone ∧ Ok calls.bind ∧ Ok calls.listen := by
  unfold setupTcpServer
  cases hsocket : calls.socket with
  | error e => exact iff_of_true (atomic_nothing rfl) fun fd h => by cases h
  | ok fd =>
    simp only [Except.ok.injEq, forall_eq']
    by_cases haddr : calls.inetAddr = inaddrNone
    · simp only [haddr, if_true, ne_eq, not_true_eq_false, false_and, and_false, iff_false]
      exact not_atomic_leak fd (by simp)
    · rw [if_neg haddr]
      cases hbind : calls.bind with
      | error e => exact iff_of_false (not_atomic_leak fd (by simp)) fun h => not_ok_error e h.2.2.1
      | ok _ =>
        cases hlisten : calls.listen with
        | error e =>
          exact iff_of_false (not_atomic_leak fd (by simp)) fun h => not_ok_error e h.2.2.2
        | ok _ =>
          exact (atomic_opened fd (by simp)).trans ⟨fun h => ⟨h, haddr, rfl, rfl⟩, fun h => h.1⟩

theorem natCast_ne_neg_one (fd : Nat) : (fd : Int) ≠ -1 := by omega

/-- The loop: the first address that gives a socket decides. -/
theorem connectAny_atomic_iff (infop : List (Candidate p.fds)) : ∀ said : List String,
    Atomic p.fds (-1) (.ok (connectAny p infop said)) ↔
      ∀ c ∈ infop.find? fun c => decide (Ok c.socket), Ok c.connect := by
  induction infop with
  | nil => intro said; exact iff_of_true (atomic_nothing rfl) (by simp)
  | cons current rest ih =>
    intro said
    unfold connectAny
    cases hsocket : current.socket with
    | error e =>
      rw [List.find?_cons_of_neg (by simp [hsocket])]
      exact ih _
    | ok clientfd =>
      rw [List.find?_cons_of_pos (by simp [hsocket])]
      simp only [Option.mem_def, Option.some.injEq, forall_eq']
      cases hconnect : current.connect with
      | error e => exact iff_of_false (not_atomic_leak clientfd (by simp)) (not_ok_error e)
      | ok _ =>
        exact (atomic_opened clientfd (by simp)).trans
          ⟨fun _ => rfl, fun _ => natCast_ne_neg_one _⟩

theorem connectTcpClient_atomic_iff (getaddrinfo : Except String (List (Candidate p.fds))) :
    Atomic p.fds (-1) (.ok (connectTcpClient p getaddrinfo)) ↔
      ∀ infop, getaddrinfo = .ok infop →
        ∀ c ∈ infop.find? fun c => decide (Ok c.socket), Ok c.connect := by
  unfold connectTcpClient
  cases getaddrinfo with
  | error e => exact iff_of_true (atomic_nothing rfl) fun infop h => by cases h
  | ok infop =>
    simp only [Except.ok.injEq, forall_eq']
    exact connectAny_atomic_iff infop []

theorem connectNixStreamingClient_atomic_iff (calls : Candidate p.fds) (sockpath : CString) :
    Atomic p.fds (-1) (connectNixStreamingClient p calls sockpath) ↔
      (Ok calls.socket → sockpath.chars.length < sunPathSize ∧ Ok calls.connect) := by
  unfold connectNixStreamingClient
  cases hsocket : calls.socket with
  | error e => exact iff_of_true (atomic_nothing rfl) fun h => absurd h (not_ok_error e)
  | ok fd =>
    by_cases hfits : sockpath.chars.length < sunPathSize
    · simp only [Block.strcpy_of (b := (Block.alloc sunPathSize).write 0 _) hfits, Outcome.ok_bind,
        ok_ok, hfits, true_and, forall_const]
      cases hconnect : calls.connect with
      | error e => exact iff_of_false (not_atomic_leak fd (by simp)) (not_ok_error e)
      | ok _ =>
        exact (atomic_opened fd (by simp)).trans
          ⟨fun _ => rfl, fun _ => natCast_ne_neg_one _⟩
    · -- the path is copied past the end of `sun_path`
      simp only [Block.strcpy_past (b := (Block.alloc sunPathSize).write 0 _) hfits,
        Outcome.fault_bind, ok_ok, hfits, false_and, forall_const, iff_false]
      intro hatomic
      obtain ⟨_, _, hfault, _⟩ := hatomic
      cases hfault

/-! ## All of them -/

/-- **When setting up a socket is atomic.** A server: if it gets a socket, that is not descriptor
0, the address is not the one `inet_addr` reports errors with, and `bind` (and `listen`) succeed.
A client of a list of addresses: if the first address that gives a socket connects. A client of a
path: if it gets no socket, or the path fits its array and `connect` succeeds. -/
theorem setup_atomic_iff (p : Process) :
    (∀ calls : ServerCalls p.fds, Atomic p.fds 0 (.ok (setupUdpServer p calls)) ↔
      ∀ fd, calls.socket = .ok fd →
        (fd.1 : Int) ≠ 0 ∧ calls.inetAddr ≠ inaddrNone ∧ Ok calls.bind) ∧
    (∀ calls : ServerCalls p.fds, Atomic p.fds 0 (.ok (setupTcpServer p calls)) ↔
      ∀ fd, calls.socket = .ok fd →
        (fd.1 : Int) ≠ 0 ∧ calls.inetAddr ≠ inaddrNone ∧ Ok calls.bind ∧ Ok calls.listen) ∧
    (∀ getaddrinfo, Atomic p.fds (-1) (.ok (connectTcpClient p getaddrinfo)) ↔
      ∀ infop, getaddrinfo = .ok infop →
        ∀ c ∈ infop.find? fun c => decide (Ok c.socket), Ok c.connect) ∧
    (∀ (calls : Candidate p.fds) (sockpath : CString),
      Atomic p.fds (-1) (connectNixStreamingClient p calls sockpath) ↔
        (Ok calls.socket → sockpath.chars.length < sunPathSize ∧ Ok calls.connect)) :=
  ⟨setupUdpServer_atomic_iff, setupTcpServer_atomic_iff, connectTcpClient_atomic_iff,
    connectNixStreamingClient_atomic_iff⟩

/-- A server whose port is taken leaves its socket open. -/
theorem setup_leaks :
    ¬ ((∀ (p : Process) (calls : ServerCalls p.fds), Atomic p.fds 0 (.ok (setupUdpServer p calls))) ∧
      (∀ (p : Process) (calls : ServerCalls p.fds), Atomic p.fds 0 (.ok (setupTcpServer p calls))) ∧
      (∀ (p : Process) getaddrinfo, Atomic p.fds (-1) (.ok (connectTcpClient p getaddrinfo))) ∧
      ∀ (p : Process) (calls : Candidate p.fds) (sockpath : CString),
        Atomic p.fds (-1) (connectNixStreamingClient p calls sockpath)) := by
  intro h
  have hudp := h.1 ⟨{0, 1, 2}, []⟩
    ⟨.ok ⟨3, by decide⟩, .ok (), .ok (), 0, .error "Address already in use", .ok ()⟩
  exact not_atomic_leak (p := ⟨{0, 1, 2}, []⟩) ⟨3, by decide⟩ rfl hudp

end Mikelibc.Net
