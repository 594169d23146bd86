import Mikelibc.Linked.Code
import Mikelibc.Lib.Memory

/-! # The loggers of `mlog.c`

The global variables, the logger nodes in memory, and every operation on them. A
call that depends on the outside carries what it gets from there: `malloc` the
address of the new node (`none`: out of memory), `fopen` the new stream or the
text of the error. A handle (`mlog_handle_t`) is an `Int`. What a call prints,
and the callbacks it makes, it returns as `Event`s. A message is given as the text
that its format and arguments expand to. The field `path` is left out: it is set
to `NULL` and never read. -/
namespace Mikelibc.Log
open CSem Linked

/-- `loggertype_t`: the named values, and the rest of `int`. -/
inductive LoggerType where
  | none
  | stdout
  | syslog
  | file
  | stderr
  | other (n : { n : Int // n < -1 ∨ 3 < n })
  deriving DecidableEq

/-- `logseverity_t`: the named values, and the rest of `unsigned`. -/
inductive LogSeverity where
  | trace
  | debug
  | info
  | warning
  | error
  | critical
  | other (n : { n : UInt32 // n ∉ [0, 10, 20, 30, 40, 50] })
  deriving DecidableEq

/-- `logtime_t`: the named values, and the rest of `unsigned`. -/
inductive LogTime where
  | none
  | locNoZone
  | locWZone
  | utc
  | other (n : { n : UInt32 // 3 < n })
  deriving DecidableEq

def LogSeverity.value : LogSeverity → UInt32
  | .trace => 0
  | .debug => 10
  | .info => 20
  | .warning => 30
  | .error => 40
  | .critical => 50
  | .other n => n.1

/-- A `FILE *` that is not `NULL`. -/
inductive Stream where
  | stdout
  | stderr
  | file (id : Nat)
  deriving DecidableEq

/-- `mlog_t`, without `next`; callbacks and their data are pointers. -/
structure Mlog where
  loggertype : LoggerType
  severity : LogSeverity
  logtime : LogTime
  handle : Int
  logfile : Option Stream
  callback : Ptr
  cbData : Ptr
  deriving DecidableEq

abbrev Text := List UInt8

def bytes (s : String) : Text := s.toUTF8.toList

inductive Event where
  | print (stream : Stream) (text : Text)
  | call (callback : Nat) (severity : LogSeverity) (message : Text) (cbData : Ptr)

/-- The global variables, the logger nodes, and the streams `fopen` has returned and nobody
has closed. -/
structure Globals where
  gHandle : Int
  mloggers : Ptr
  nextHandle : Int
  nloggers : UInt32
  heap : Store Mlog
  openFiles : List Nat

def Globals.start : Globals := ⟨-1, none, 0, 0, fun _ => none, []⟩

def maxLog : Nat := 4096

/-! ## Messages -/

def severityName : LogSeverity → String
  | .trace => "ALL: "
  | .debug => "DEBUG: "
  | .info => "INFO: "
  | .warning => "WARNING: "
  | .error => "ERROR: "
  | .critical => "CRITICAL: "
  | .other _ => "LOG: "

def timeFormat : LogTime → String
  | .locNoZone | .utc => "%a %b %e %H:%M:%S"
  | .locWZone => "%a %b %e %H:%M:%S %Z (UTC%z) %Y"
  | .none | .other _ => ""

/-- The logger's own way to write a message. `strftime` is the present time in the given
format, in UTC or not. -/
def writeMessage (strftime : Bool → String → Text) (logger : Mlog) (severity : LogSeverity)
    (text : Text) : Outcome (List Event) :=
  match logger.logfile with
  | none => .abort
  | some f =>
    let stamp := if logger.logtime = .none then []
      else [.print f (strftime (logger.logtime = .utc) (timeFormat logger.logtime) ++ bytes " ")]
    let zone := if logger.logtime = .utc then [.print f (bytes "UTC ")] else []
    return stamp ++ zone ++ [.print f (bytes (severityName severity)), .print f text,
      .print f (bytes "\n")]

def vmlogf (strftime : Bool → String → Text) (logger : Mlog) (severity : LogSeverity) (text : Text) :
    Outcome (List Event) :=
  if severity.value < logger.severity.value then return []
  else match logger.callback with
  | some callback =>
    return [.call callback logger.severity (text.take (maxLog - 1)) logger.cbData]
  | none => match logger.loggertype with
    | .none => return []
    | .syslog => do
      let out ← writeMessage strftime logger severity text
      return .print .stderr (bytes "Warning: syslog support not implemented.\n") :: out
    | .stdout | .stderr | .file => writeMessage strftime logger severity text
    | .other n =>
      return [.print .stderr (bytes ("Unsupported logger type: " ++ toString n.1 ++ "\n"))]

/-! ## The registry -/

def mloggerCheck (handle : Int) (current : Mlog) : Bool := current.handle == handle

variable (fuel : Nat)

/-- The variables a list macro works on: the global list, and local cursors that are `NULL`. -/
def Globals.vars (g : Globals) : ListVars Mlog := ⟨g.heap, g.mloggers, none, none, none, 0⟩

def findMlogger (handle : Int) (g : Globals) : Outcome Ptr := do
  let v ← mlinkedListFind mloggerCheck fuel handle g.vars
  return v.current

def mlogf (strftime : Bool → String → Text) (handle : Int) (severity : LogSeverity) (text : Text)
    (g : Globals) : Outcome (List Event) :=
  if handle < 0 then return []
  else do
    let logger ← findMlogger fuel handle g
    if logger ≠ none then
      let node ← g.heap.load logger
      vmlogf strftime node.payload severity text
    else return [.print .stderr (bytes ("Bad logging handle: " ++ toString handle ++ "\n"))]

def updateLogger (logger : Ptr) (f : Mlog → Mlog) (g : Globals) : Outcome Globals := do
  let node ← g.heap.load logger
  let heap ← g.heap.store logger { node with payload := f node.payload }
  return { g with heap := heap }

/-- Find the logger of a handle and assign to its fields; the setters differ in the fields and
in how they complain about the handle. -/
def withLogger (handle : Int) (f : Mlog → Mlog) (complaint : String) (g : Globals) :
    Outcome (Globals × List Event) := do
  let logger ← findMlogger fuel handle g
  if logger ≠ none then
    let g ← updateLogger logger f g
    return (g, [])
  else return (g, [.print .stderr (bytes (complaint ++ toString handle ++ "\n"))])

def setloggertime (handle : Int) (tstype : LogTime) (g : Globals) :
    Outcome (Globals × List Event) :=
  withLogger fuel handle (fun logger => { logger with logtime := tstype }) "Invalid logger handle: " g

def setloggersev (handle : Int) (severity : LogSeverity) (g : Globals) :
    Outcome (Globals × List Event) :=
  withLogger fuel handle (fun logger => { logger with severity := severity })
    "Invalid logger handle " g

def registerMlogCallback (handle : Int) (callback cbData : Ptr) (g : Globals) :
    Outcome (Globals × List Event) :=
  withLogger fuel handle (fun logger => { logger with callback := callback, cbData := cbData })
    "Invalid logger handle " g

def setloggertype (handle : Int) (type : LoggerType) (path : Option String)
    (fopen : Except String Nat) (g : Globals) : Outcome (Globals × Int × List Event) := do
  let logger ← findMlogger fuel handle g
  if logger ≠ none then
    let g ← updateLogger logger (fun l => { l with loggertype := type }) g
    if type = .file then
      if path ≠ none then
        match fopen with
        | .ok id =>
          let g ← updateLogger logger (fun l => { l with logfile := some (.file id) }) g
          return ({ g with openFiles := id :: g.openFiles }, 1, [])
        | .error e =>
          let g ← updateLogger logger (fun l => { l with logfile := none }) g
          let g ← updateLogger logger (fun l => { l with loggertype := .none }) g
          return (g, 0, [.print .stderr (bytes ("logfile: " ++ e ++ "\n"))])
      else
        return (g, 0, [.print .stderr (bytes "Warning: Requested file logger, but path is NULL\n")])
    else if type = .stderr then
      let g ← updateLogger logger (fun l => { l with logfile := some .stderr }) g
      return (g, 1, [])
    else
      let g ← updateLogger logger (fun l => { l with logfile := some .stdout }) g
      return (g, 1, [])
  else
    return (g, 0, [.print .stderr (bytes ("Invalid logger handle " ++ toString handle ++ "\n"))])

/-- `get_mlogger`. With no path, its `setloggertype` does not call `fopen`. -/
def getMlogger (malloc : Ptr) (loggertype : LoggerType) (severity : LogSeverity) (logtime : LogTime)
    (g : Globals) : Outcome (Globals × Int × List Event) :=
  let current := g.mloggers
  match malloc with
  | none => return (g, -1, [.print .stderr (bytes "FATAL: malloc returned NULL\n")])
  | some newLogger => do
    let handle := g.nextHandle
    let node : Mlog := {
      loggertype := loggertype
      severity := severity
      logtime := logtime
      handle := handle
      logfile := none
      callback := none
      cbData := none }
    Outcome.require (g.nextHandle + 1 ≤ intMax)
    let g := { g with
      heap := Function.update g.heap newLogger (some ⟨node, none⟩)
      nextHandle := g.nextHandle + 1
      nloggers := g.nloggers + 1 }
    let v ← mlinkedListAdd fuel (some newLogger) { g.vars with current := current }
    let g := { g with
      heap := v.heap
      mloggers := v.start
      gHandle := if g.gHandle < 0 then 0 else g.gHandle }
    let (g, _, out) ← setloggertype fuel handle loggertype none (.error "") g
    return (g, handle, out)

def freeNode (p : Ptr) (heap : Store Mlog) : Outcome (Store Mlog) := do
  let _ ← heap.load p
  return match p with
    | some a => Function.update heap a none
    | none => heap

def shutdownMlogger (handle : Int) (g : Globals) : Outcome (Globals × Int) := do
  let v ← mlinkedListRemove mloggerCheck fuel handle g.vars
  let g := { g with heap := v.heap, mloggers := v.start }
  if v.freenode = none then
    return (g, 0)
  else
    let heap ← freeNode v.freenode g.heap
    let nloggers := g.nloggers - 1
    return ({ g with
      heap := heap
      nloggers := nloggers
      gHandle := if nloggers = 0 then -1 else g.gHandle }, 1)

structure FreeVars where
  heap : Store Mlog
  current : Ptr
  previous : Ptr
  nloggers : UInt32

def freeRound (v : FreeVars) : Outcome FreeVars := do
  let node ← v.heap.load v.current
  let current := node.next
  let heap ← freeNode v.previous v.heap
  return { heap := heap, current := current, previous := current, nloggers := v.nloggers - 1 }

def shutdownAllMloggers (g : Globals) : Outcome Globals := do
  let v ← whileLoop (fun v => return decide (v.current ≠ none)) freeRound fuel
    { heap := g.heap, current := g.mloggers, previous := g.mloggers, nloggers := g.nloggers }
  Outcome.assert (v.nloggers = 0)
  return { g with heap := v.heap, nloggers := v.nloggers, gHandle := -1, mloggers := none }

/-! ## Calls -/

inductive Op where
  | getMlogger (malloc : Ptr) (loggertype : LoggerType) (severity : LogSeverity) (logtime : LogTime)
  | shutdownMlogger (handle : Int)
  | shutdownAllMloggers
  | setloggertype (handle : Int) (type : LoggerType) (path : Option String)
      (fopen : Except String Nat)
  | setloggersev (handle : Int) (severity : LogSeverity)
  | setloggertime (handle : Int) (tstype : LogTime)
  | registerMlogCallback (handle : Int) (callback cbData : Ptr)

/-- What a call returns, 0 where it returns nothing, and what it prints. -/
structure Ret where
  value : Int
  output : List Event

def step (g : Globals) : Op → Outcome (Globals × Ret)
  | .getMlogger malloc loggertype severity logtime => do
    let (g, r, out) ← getMlogger fuel malloc loggertype severity logtime g
    return (g, ⟨r, out⟩)
  | .shutdownMlogger handle => do
    let (g, r) ← shutdownMlogger fuel handle g
    return (g, ⟨r, []⟩)
  | .shutdownAllMloggers => do
    let g ← shutdownAllMloggers fuel g
    return (g, ⟨0, []⟩)
  | .setloggertype handle type path fopen => do
    let (g, r, out) ← setloggertype fuel handle type path fopen g
    return (g, ⟨r, out⟩)
  | .setloggersev handle severity => do
    let (g, out) ← setloggersev fuel handle severity g
    return (g, ⟨0, out⟩)
  | .setloggertime handle tstype => do
    let (g, out) ← setloggertime fuel handle tstype g
    return (g, ⟨0, out⟩)
  | .registerMlogCallback handle callback cbData => do
    let (g, out) ← registerMlogCallback fuel handle callback cbData g
    return (g, ⟨0, out⟩)

end Mikelibc.Log
