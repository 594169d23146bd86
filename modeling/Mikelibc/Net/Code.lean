import Mathlib.Data.Finset.Insert
import Mikelibc.Lib.Memory

/-! # Setting sockets up, as in `mnet.c`

What the four functions change outside is the set of open descriptors and
`stderr`. The outcome of each system call is given beforehand: a value, or the text
of the error (`strerror`). A new descriptor is one that is not open, which is part
of its type. Debug messages are left out, and so is what only the system reads: the
address, the port and the options themselves. -/
namespace Mikelibc.Net
open CSem

structure Process where
  fds : Finset Nat
  stderr : List String

/-- What `socket` may return while these descriptors are open. -/
abbrev NewFd (fds : Finset Nat) := { fd : Nat // fd ∉ fds }

namespace Process

def opens (p : Process) (fd : Nat) : Process := { p with fds := insert fd p.fds }

def complain (p : Process) (text : String) : Process := { p with stderr := p.stderr ++ [text] }

def perror (p : Process) (call error : String) : Process :=
  p.complain (call ++ ": " ++ error ++ "\n")

@[simp] theorem opens_fds (p : Process) (fd : Nat) : (p.opens fd).fds = insert fd p.fds := rfl
@[simp] theorem complain_fds (p : Process) (text : String) : (p.complain text).fds = p.fds := rfl
@[simp] theorem perror_fds (p : Process) (call error : String) :
    (p.perror call error).fds = p.fds := rfl

end Process

/-! ## Servers -/

/-- The outcomes of the calls a server makes; the result of `setsockopt` for `SO_REUSEADDR` is
not looked at. -/
structure ServerCalls (fds : Finset Nat) where
  socket : Except String (NewFd fds)
  setsockoptRcvbuf : Except String Unit
  getsockoptRcvbuf : Except String Unit
  inetAddr : UInt32
  bind : Except String Unit
  listen : Except String Unit

def inaddrNone : UInt32 := 0xFFFFFFFF

/-- The socket options, the same in both servers: no failure ends the function. -/
def setOptions {fds : Finset Nat} (calls : ServerCalls fds) (p : Process) : Process :=
  match calls.setsockoptRcvbuf with
  | .error e => p.complain ("Failed to set SO_RCVBUF: " ++ e)
  | .ok _ => match calls.getsockoptRcvbuf with
    | .error e => p.complain ("getsockopt failed: " ++ e)
    | .ok _ => p

def setupUdpServer (p : Process) (calls : ServerCalls p.fds) : Process × Int :=
  match calls.socket with
  | .error _ => (p, 0)
  | .ok socketfd =>
    let p := setOptions calls (p.opens socketfd)
    if calls.inetAddr = inaddrNone then (p, 0)
    else match calls.bind with
      | .error _ => (p, 0)
      | .ok _ => (p, socketfd.1)

def setupTcpServer (p : Process) (calls : ServerCalls p.fds) : Process × Int :=
  match calls.socket with
  | .error e => (p.perror "socket" e, 0)
  | .ok socketfd =>
    let p := setOptions calls (p.opens socketfd)
    if calls.inetAddr = inaddrNone then (p, 0)
    else match calls.bind with
      | .error e => (p.perror "bind" e, 0)
      | .ok _ => match calls.listen with
        | .error e => (p.perror "listen" e, 0)
        | .ok _ => (p, socketfd.1)

/-! ## Clients -/

/-- A resolved address, with the outcomes of the two calls made for it. -/
structure Candidate (fds : Finset Nat) where
  socket : Except String (NewFd fds)
  connect : Except String Unit

/-- The loop over the addresses, and what follows when it comes to the end of them. -/
def connectAny (p : Process) : List (Candidate p.fds) → List String → Process × Int
  | [], said =>
    ({ p with stderr := p.stderr ++ said ++ ["failed to connect to all resolved hosts"] }, -1)
  | current :: rest, said => match current.socket with
    | .error e => connectAny p rest (said ++ ["socket creation failed: " ++ e])
    | .ok clientfd =>
      let p := { p.opens clientfd with stderr := p.stderr ++ said }
      match current.connect with
      | .error e => (p.perror "connect" e, -1)
      | .ok _ => (p, clientfd.1)

def connectTcpClient (p : Process) (getaddrinfo : Except String (List (Candidate p.fds))) :
    Process × Int :=
  match getaddrinfo with
  | .error e => (p.complain ("getaddrinfo: " ++ e ++ "\n"), -1)
  | .ok infop => connectAny p infop []

def sunPathSize : Nat := 108

def connectNixStreamingClient (p : Process) (calls : Candidate p.fds) (sockpath : CString) :
    Outcome (Process × Int) :=
  match calls.socket with
  | .error e => return (p.perror "socket" e, -1)
  | .ok fd => do
    let p := p.opens fd
    let sunPath : Block UInt8 1 := (Block.alloc sunPathSize).write 0 (List.replicate sunPathSize 0)
    let _ ← sunPath.strcpy sockpath
    match calls.connect with
    | .error e => return (p.perror "connect" e, -1)
    | .ok _ => return (p, fd.1)

end Mikelibc.Net
