import Mathlib.Data.List.Basic

/- This file interleaves the two pumps of the proxy with the daemon that answers behind it. -/

namespace Codegraph.Daemon.Proxy

/-- The members of a JSON object that the proxy reads. -/
structure Message (Id : Type) where
  method : Option String
  id : Option Id
  protocolVersion : Option String
  declaresProtocolVersion : Bool
  result : Bool
  error : Bool
  deriving DecidableEq

/-- A line is blank, a JSON object, or text that does not parse as one. -/
inductive Line (Id : Type) where
  | blank
  | json (text : String) (message : Message Id)
  | other (text : String)
  deriving DecidableEq

section Lines

variable {Id : Type}

def Line.method : Line Id → Option String
  | .json _ message => message.method
  | _ => none

def Line.id : Line Id → Option Id
  | .json _ message => message.id
  | _ => none

def Line.protocolVersion : Line Id → Option String
  | .json _ message => message.protocolVersion
  | _ => none

def Line.declaresProtocolVersion : Line Id → Bool
  | .json _ message => message.declaresProtocolVersion
  | _ => false

def Line.isReply : Line Id → Bool
  | .json _ message => message.result || message.error
  | _ => false

/-- The id that a reply answers. -/
def Line.replyId (line : Line Id) : Option Id :=
  if line.isReply then line.id else none

/-- The id of a request: a message that names a method and carries an id. -/
def Line.request (line : Line Id) : Option Id :=
  if line.method.isSome then line.id else none

/-- The id of a request whose reply comes from the daemon once it is forwarded. -/
def Line.owed (line : Line Id) : Option Id :=
  if line.method = some "initialize" then none else line.request

/-- The id of a request that the proxy answers itself and forwards only to prime the daemon. -/
def Line.primed (line : Line Id) : Option Id :=
  if line.method = some "initialize" then line.id else none

/-- A line that the daemon sends on its own account. -/
def Line.unsolicited (line : Line Id) : Bool :=
  match line with
  | .blank => false
  | _ => !line.isReply

def Line.repliesTo [DecidableEq Id] (id : Id) (line : Line Id) : Bool :=
  line.replyId = some id

end Lines

/-- The texts of the answers that the proxy gives on the server's behalf. -/
structure LocalAnswers (Id : Type) where
  initializeText : Id → Option String → String
  toolsListText : Id → String

/-- A success response carries the id it answers and a result. -/
def reply {Id : Type} (id : Id) (text : String) : Line Id :=
  .json text ⟨none, some id, none, false, true, false⟩

/-- The ids of the forwarded requests that the host is still owed a reply for. -/
structure ReplyLedger (Id : Type) where
  outstanding : List Id
  abandoned : Bool
  deriving DecidableEq

section Ledger

variable {Id : Type} [DecidableEq Id]

def ReplyLedger.record (ledger : ReplyLedger Id) (id : Id) : ReplyLedger Id :=
  { ledger with outstanding := ledger.outstanding ++ [id] }

/-- Only the first entry of the id goes. -/
def ReplyLedger.retire (ledger : ReplyLedger Id) (id : Id) : ReplyLedger Id :=
  { ledger with outstanding := ledger.outstanding.erase id }

def ReplyLedger.abandon (ledger : ReplyLedger Id) : ReplyLedger Id :=
  { ledger with abandoned := true }

/-- A wait on a settled ledger returns at once, and on any other one it parks. -/
def ReplyLedger.settled (ledger : ReplyLedger Id) : Bool :=
  ledger.abandoned || ledger.outstanding.isEmpty

end Ledger

/-- The host pump reads a line, or it is about to set the suppressed id, or to forward the line. -/
inductive HostTask (Id : Type) where
  | reading
  | suppress (id : Id) (line : Line Id)
  | forward (line : Line Id)
  deriving DecidableEq

/-- The line that the host pump has still to forward. -/
def HostTask.lines {Id : Type} : HostTask Id → List (Line Id)
  | .reading => []
  | .suppress _ line => [line]
  | .forward line => [line]

/-- The daemon pump reads a line, or it is about to write it to the host, or to retire the id it answered. -/
inductive DaemonTask (Id : Type) where
  | reading
  | deliver (line : Line Id)
  | retire (id : Id)
  deriving DecidableEq

def DaemonTask.lines {Id : Type} : DaemonTask Id → List (Line Id)
  | .deliver line => [line]
  | _ => []

/-- The pumps with what they share, and every line that went either way. -/
structure State (Id : Type) where
  shutdown : Bool
  read : List (Line Id)
  hostIn : List (Line Id)
  initialized : Bool
  discovered : Bool
  hostTask : HostTask Id
  forwarded : List (Line Id)
  suppressedId : Option Id
  ledger : ReplyLedger Id
  sent : List (Line Id)
  closed : Bool
  daemonRecv : List (Line Id)
  daemonTask : DaemonTask Id
  hostOut : List (Line Id)
  deriving DecidableEq

/-- At first nothing was read on either side. -/
def start {Id : Type} (lines : List (Line Id)) : State Id where
  shutdown := false
  read := []
  hostIn := lines
  initialized := false
  discovered := false
  hostTask := .reading
  forwarded := []
  suppressedId := none
  ledger := ⟨[], false⟩
  sent := []
  closed := false
  daemonRecv := []
  daemonTask := .reading
  hostOut := []

section Pumps

variable {Id : Type} [DecidableEq Id] (answers : LocalAnswers Id) (state : State Id)

def State.writeHostLine (line : Line Id) : State Id :=
  { state with hostOut := state.hostOut ++ [line] }

/-- A `tools/list` of the `initialize` lifecycle is answered here. -/
def State.localToolsList (line : Line Id) : Bool :=
  line.method = some "tools/list" && state.initialized && !state.discovered && !line.declaresProtocolVersion

/-- An `initialize` is answered here and forwarded to prime the daemon. -/
def answerInitialize (line : Line Id) : State Id :=
  match line.id with
  | some id =>
    { state.writeHostLine (reply id (answers.initializeText id line.protocolVersion)) with
      initialized := true, hostTask := .suppress id line }
  | none => { state with initialized := true, hostTask := .forward line }

def answerToolsList (line : Line Id) : State Id :=
  match line.id with
  | some id => state.writeHostLine (reply id (answers.toolsListText id))
  | none => state

/-- Every line with an id is recorded before it is forwarded. -/
def recordAndForward (line : Line Id) : State Id :=
  { state with
    discovered := state.discovered || line.method = some "server/discover"
    ledger := match line.id with
      | some id => state.ledger.record id
      | none => state.ledger
    hostTask := .forward line }

def readHostLine (line : Line Id) : State Id :=
  if line = .blank then state
  else if line.method = some "initialize" then answerInitialize answers state line
  else if state.localToolsList line then answerToolsList answers state line
  else recordAndForward state line

/-- One step of the host pump: the suppressed id is set before the line goes out. -/
def pumpHostToDaemon : State Id :=
  match state.hostTask with
  | .suppress id line => { state with suppressedId := some id, hostTask := .forward line }
  | .forward line => { state with forwarded := state.forwarded ++ [line], hostTask := .reading }
  | .reading =>
    match state.hostIn with
    | [] => state
    | line :: rest =>
      if state.shutdown then state
      else readHostLine answers { state with read := state.read ++ [line], hostIn := rest } line

/-- A reply to the suppressed id goes no further. -/
def readDaemonLine (line : Line Id) : State Id :=
  if line = .blank then state
  else if line.replyId.isSome ∧ line.replyId = state.suppressedId then state
  else { state with daemonTask := .deliver line }

/-- One step of the daemon pump: an id is retired only after its reply was written. -/
def pumpDaemonToHost : State Id :=
  match state.daemonTask with
  | .deliver line =>
    { state.writeHostLine line with
      daemonTask := match line.replyId with
        | some id => .retire id
        | none => .reading }
  | .retire id => { state with ledger := state.ledger.retire id, daemonTask := .reading }
  | .reading =>
    match state.daemonRecv with
    | line :: rest => readDaemonLine { state with daemonRecv := rest } line
    | [] => if state.closed then { state with ledger := state.ledger.abandon } else state

/-- The daemon answers a forwarded request that it has not answered, or it sends a line of its own. -/
def State.daemonMaySend (line : Line Id) : Bool :=
  !state.closed &&
    (!line.isReply ||
      match line.id with
      | some id => state.forwarded.any (·.request = some id) && !state.sent.any (·.repliesTo id)
      | none => false)

inductive Step (Id : Type) where
  | hostPump
  | daemonPump
  | daemonSends (line : Line Id)
  | daemonCloses
  | watchdogFires
  deriving DecidableEq

def step (moved : Step Id) : Option (State Id) :=
  match moved with
  | .hostPump => some (pumpHostToDaemon answers state)
  | .daemonPump => some (pumpDaemonToHost state)
  | .daemonSends line =>
    if state.daemonMaySend line then
      some { state with sent := state.sent ++ [line], daemonRecv := state.daemonRecv ++ [line] }
    else none
  | .daemonCloses => some { state with closed := true }
  | .watchdogFires => some { state with shutdown := true }

end Pumps

def run {Id : Type} [DecidableEq Id] (answers : LocalAnswers Id) : List (Step Id) → State Id → Option (State Id)
  | [], state => some state
  | moved :: rest, state => (step answers state moved).bind (run answers rest)

end Codegraph.Daemon.Proxy
