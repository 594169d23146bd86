import Mikelibc.Net.Atomic

/-! # Falling back over the resolved addresses

A client that is given several addresses should try them in turn until one connects.
`connect_tcp_client` does so only while `socket` fails: after the first `connect` it
returns, whether that has succeeded or not. -/
namespace Mikelibc.Net

variable {p : Process}

/-- Both calls for this address succeed. -/
def Candidate.Succeeds {fds : Finset Nat} (c : Candidate fds) : Prop := Ok c.socket ∧ Ok c.connect

instance {fds : Finset Nat} (c : Candidate fds) : Decidable c.Succeeds :=
  inferInstanceAs (Decidable (_ ∧ _))

/-- No address is there at all, or none of them succeeds. -/
def NoneSucceeds {fds : Finset Nat} (getaddrinfo : Except String (List (Candidate fds))) : Prop :=
  ∀ infop, getaddrinfo = .ok infop → ∀ c ∈ infop, ¬ c.Succeeds

/-- What a client that falls back returns: the descriptor of the first address that succeeds, and
-1 only if none does. -/
structure FallsBack {fds : Finset Nat} (getaddrinfo : Except String (List (Candidate fds)))
    (value : Int) : Prop where
  first : ∀ tried c rest fd, getaddrinfo = .ok (tried ++ c :: rest) → (∀ t ∈ tried, ¬ t.Succeeds) →
    c.socket = .ok fd → Ok c.connect → value = fd.1
  failure : value = -1 ↔ NoneSucceeds getaddrinfo

/-- The first address that gives a socket connects, if any address succeeds. -/
def FirstSocketConnects {fds : Finset Nat} (infop : List (Candidate fds)) : Prop :=
  (∃ c ∈ infop, c.Succeeds) → ∀ c ∈ infop.find? fun c => decide (Ok c.socket), Ok c.connect

theorem exists_first {fds : Finset Nat} {infop : List (Candidate fds)}
    (h : ∃ c ∈ infop, c.Succeeds) :
    ∃ tried c rest fd, infop = tried ++ c :: rest ∧ (∀ t ∈ tried, ¬ t.Succeeds) ∧
      c.socket = .ok fd ∧ Ok c.connect := by
  obtain ⟨c, hc⟩ := Option.isSome_iff_exists.mp
    (List.find?_isSome (p := fun c : Candidate fds => decide c.Succeeds).mpr (by simpa using h))
  obtain ⟨hsucceeds, tried, rest, rfl, htried⟩ := List.find?_eq_some_iff_append.mp hc
  obtain ⟨hsocket, hconnect⟩ := of_decide_eq_true hsucceeds
  cases hs : c.socket with
  | error e => rw [hs] at hsocket; exact absurd hsocket (not_ok_error e)
  | ok fd => exact ⟨tried, c, rest, fd, rfl, by simpa using htried, hs, hconnect⟩

/-- The loop: the first address that gives a socket decides what is returned. -/
theorem connectAny_value (infop : List (Candidate p.fds)) : ∀ said : List String,
    (connectAny p infop said).2 =
      match infop.find? fun c => decide (Ok c.socket) with
      | none => -1
      | some c => match c.socket, c.connect with
        | .ok fd, .ok _ => (fd.1 : Int)
        | _, _ => -1 := by
  induction infop with
  | nil => intro said; rfl
  | cons current rest ih =>
    intro said
    unfold connectAny
    cases hsocket : current.socket with
    | error e =>
      rw [List.find?_cons_of_neg (by simp [hsocket])]
      exact ih _
    | ok clientfd =>
      rw [List.find?_cons_of_pos (by simp [hsocket])]
      simp only [hsocket]
      cases current.connect <;> rfl

/-- An address that is the first to give a socket and connects is also the first that succeeds. -/
theorem connectAny_first {tried rest : List (Candidate p.fds)} {c : Candidate p.fds}
    {fd : NewFd p.fds} (htried : ∀ t ∈ tried, ¬ t.Succeeds) (hsocket : c.socket = .ok fd)
    (hconnect : Ok c.connect) (hfirst : FirstSocketConnects (tried ++ c :: rest))
    (said : List String) : (connectAny p (tried ++ c :: rest) said).2 = fd.1 := by
  have hc : Ok c.socket := by rw [hsocket]; exact ok_ok fd
  have hnone : tried.find? (fun c => decide (Ok c.socket)) = none := by
    by_contra hsome
    obtain ⟨t, ht⟩ := Option.ne_none_iff_exists'.mp hsome
    refine htried t (List.mem_of_find?_eq_some ht)
      ⟨by simpa using List.find?_some ht, hfirst ⟨c, by simp, hc, hconnect⟩ t ?_⟩
    rw [List.find?_append, ht]
    rfl
  rw [connectAny_value, List.find?_append, hnone, Option.none_or,
    List.find?_cons_of_pos (by simpa using hc)]
  cases hok : c.connect with
  | error e => rw [hok] at hconnect; exact absurd hconnect (not_ok_error e)
  | ok _ => simp only [hsocket, hok]

theorem connectAny_succeeds {infop : List (Candidate p.fds)} {said : List String}
    (h : (connectAny p infop said).2 ≠ -1) :
    (∃ c ∈ infop, c.Succeeds) ∧ ∀ c ∈ infop.find? fun c => decide (Ok c.socket), Ok c.connect := by
  rw [connectAny_value] at h
  cases hfind : infop.find? fun c => decide (Ok c.socket) with
  | none => rw [hfind] at h; exact absurd rfl h
  | some c =>
    rw [hfind] at h
    have hsocket : Ok c.socket := by simpa using List.find?_some hfind
    have hconnect : Ok c.connect := by
      cases hok : c.connect with
      | ok _ => exact rfl
      | error e => cases hs : c.socket <;> simp [hok, hs] at h
    exact ⟨⟨c, List.mem_of_find?_eq_some hfind, hsocket, hconnect⟩, fun d hd => by
      cases hd; exact hconnect⟩

/-- **When `connect_tcp_client` falls back.** It returns the first address that succeeds, and -1
only if none does, exactly when no address succeeds or the first that gives a socket connects. -/
theorem connectTcpClient_fallsBack_iff (p : Process)
    (getaddrinfo : Except String (List (Candidate p.fds))) :
    FallsBack getaddrinfo (connectTcpClient p getaddrinfo).2 ↔
      ∀ infop, getaddrinfo = .ok infop → FirstSocketConnects infop := by
  cases getaddrinfo with
  | error e =>
    exact iff_of_true
      ⟨fun tried c rest fd h => (by cases h), iff_of_true rfl fun infop h => (by cases h)⟩
      fun infop h => (by cases h)
  | ok infop =>
    simp only [connectTcpClient, Except.ok.injEq, forall_eq']
    constructor
    · intro h hsome
      have hvalue : (connectAny p infop []).2 ≠ -1 := fun hminus => by
        obtain ⟨c, hc, hsucceeds⟩ := hsome
        exact h.failure.mp hminus infop rfl c hc hsucceeds
      exact (connectAny_succeeds hvalue).2
    · intro hfirst
      refine ⟨fun tried c rest fd h htried hsocket hconnect => ?_, fun hminus => ?_,
        fun hnone => ?_⟩
      · cases h
        exact connectAny_first htried hsocket hconnect hfirst []
      · rintro _ ⟨⟩ c hc hsucceeds
        obtain ⟨tried, d, rest, fd, rfl, htried, hsocket, hconnect⟩ :=
          exists_first ⟨c, hc, hsucceeds⟩
        rw [connectAny_first htried hsocket hconnect hfirst] at hminus
        exact natCast_ne_neg_one fd.1 hminus
      · by_contra hvalue
        obtain ⟨⟨c, hc, hsucceeds⟩, _⟩ := connectAny_succeeds hvalue
        exact hnone infop rfl c hc hsucceeds

/-- The first of two addresses refuses the connection: the second is not tried. -/
theorem connectTcpClient_gives_up :
    ¬ ∀ (p : Process) getaddrinfo, FallsBack getaddrinfo (connectTcpClient p getaddrinfo).2 := by
  intro h
  have hback := h ⟨{0, 1, 2}, []⟩
    (.ok [⟨.ok ⟨3, by decide⟩, .error "Connection refused"⟩, ⟨.ok ⟨4, by decide⟩, .ok ()⟩])
  have hvalue := hback.first [⟨.ok ⟨3, by decide⟩, .error "Connection refused"⟩] _ [] _ rfl
    (by decide) rfl rfl
  exact absurd hvalue (by decide)

end Mikelibc.Net
