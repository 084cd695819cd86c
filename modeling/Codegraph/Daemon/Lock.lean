import Mathlib.Logic.Function.Basic

/- This file interleaves the file steps of the processes that share one project's daemon rendezvous. -/

namespace Codegraph.Daemon

abbrev Pid := Nat

structure DaemonLockInfo where
  pid : Pid
  version : String
  socketPath : String
  startedAt : Nat
  deriving DecidableEq

/-- The text of a pid file that is not blank. -/
inductive LockText where
  | json (info : DaemonLockInfo)
  | number (pid : Nat)
  | other (text : String)
  deriving DecidableEq

def decodeLockInfo : LockText → Option DaemonLockInfo
  | .json info => some info
  | .number pid => if 0 < pid then some ⟨pid, "unknown", "", 0⟩ else none
  | .other _ => none

def encodeLockInfo (info : DaemonLockInfo) : LockText := .json info

/-- A placeholder is an empty file, and no step reads who created it. -/
inductive PidFile where
  | missing
  | placeholder (creator : Pid)
  | content (raw : LockText)
  deriving DecidableEq

/-- The file's text, where a missing file and an empty one both read as no text. -/
def PidFile.text : PidFile → Option LockText
  | .content raw => some raw
  | _ => none

inductive ReadOutcome where
  | missing
  | unreadable
  | empty
  | content (raw : LockText)
  deriving DecidableEq

/-- How the system answers one file step. -/
inductive Answer where
  | ok
  | refused
  | failed
  deriving DecidableEq

def readPidfileOnce (answer : Answer) (file : PidFile) : ReadOutcome :=
  if answer = .failed then .unreadable
  else
    match file with
    | .missing => .missing
    | .placeholder _ => .empty
    | .content raw => .content raw

/-- An empty file is read once more before its outcome counts. -/
def readPidfileTolerant (answer : Answer) (again : Bool) (file : PidFile) : Option ReadOutcome :=
  match readPidfileOnce answer file with
  | .empty => if again then some .empty else none
  | outcome => some outcome

def ReadOutcome.lockInfo : ReadOutcome → Option DaemonLockInfo
  | .content raw => decodeLockInfo raw
  | _ => none

def ReadOutcome.names (outcome : ReadOutcome) (pid : Pid) : Bool :=
  match outcome.lockInfo with
  | some info => info.pid = pid
  | none => false

/-- What every process computes alike for one project. -/
structure Project where
  version : String
  daemonSocketPath : String
  daemonSocketCandidates : List String
  deriving DecidableEq

def Project.recordedSocketPath (project : Project) (outcome : ReadOutcome) : String :=
  match outcome.lockInfo with
  | some info => if info.socketPath = "" then project.daemonSocketPath else info.socketPath
  | none => project.daemonSocketPath

/-- The preferred socket comes first, and no candidate is tried twice. -/
def Project.socketCandidateChain (project : Project) (preferred : String) : List String :=
  project.daemonSocketCandidates.foldl
    (fun chain candidate => if candidate ∈ chain then chain else chain ++ [candidate]) [preferred]

def Project.lockInfo (project : Project) (pid : Pid) (now : Nat) : DaemonLockInfo :=
  ⟨pid, project.version, project.daemonSocketPath, now⟩

/-- The delays after which a refused replace is tried again. -/
def lockReplaceRetryDelaysMs : List Nat := [25, 50, 100, 200, 400, 400, 400]

/-- Who acquires the lock: a daemon that starts, or a cleaner that heals a stale socket. -/
inductive Purpose where
  | start
  | heal (socketPath : String)
  deriving DecidableEq

/-- The next file step of a process, named after the function it runs. -/
inductive Task where
  | idle
  | claimPlaceholder (purpose : Purpose) (startedAt : Nat)
  | checkPlaceholder (purpose : Purpose) (startedAt : Nat) (delays : List Nat)
  | publishRecord (purpose : Purpose) (startedAt : Nat) (delays : List Nat)
  | readExisting (again : Bool)
  | acquireWriterLock
  | probeCandidate (socketPath : String) (rest : List String)
  | unlinkCandidate (socketPath : String) (rest : List String)
  | bindCandidate (socketPath : String) (rest : List String)
  | rereadRecord (socketPath : String)
  | recheckRecord (socketPath : String) (raw : LockText) (info : DaemonLockInfo) (delays : List Nat)
  | rewriteRecord (socketPath : String) (raw : LockText) (info : DaemonLockInfo) (delays : List Nat)
  | corroborate (socketPath : String) (again : Bool)
  | unlinkOwnSocket (socketPath : String)
  | corroborateRelease (again : Bool)
  | removeOwnRecord
  | readRecordedSocket (again : Bool)
  | readStale (expectedDeadPid : Option Pid) (heal : Option String) (again : Bool)
  | judgeStale (expectedDeadPid : Option Pid) (heal : Option String) (raw : LockText)
  | removeStale (heal : Option String) (raw : LockText)
  | unlinkStaleSocket (socketPath : String)
  deriving DecidableEq

/-- An acquired lock that its process has not begun to clean up. -/
structure Held where
  info : DaemonLockInfo
  bound : Option String
  deriving DecidableEq

structure Process where
  task : Task
  held : Option Held
  deriving DecidableEq

def Process.resting : Process := ⟨.idle, none⟩

/-- A socket file remembers who bound it, and no step reads that. The kernel's writer lock falls with the process that
holds it. -/
structure Files where
  pidFile : PidFile
  sockets : String → Option Pid
  writer : Option Pid

def Files.unlink (files : Files) (answer : Answer) (socketPath : String) : Files :=
  if answer = .failed then files
  else { files with sockets := Function.update files.sockets socketPath none }

section Steps

variable (project : Project) (who : Pid) (answer : Answer) (now : Nat) (process : Process) (files : Files)

/-- The placeholder is created only where no file is. -/
def claimPlaceholder (purpose : Purpose) (startedAt : Nat) : Process × Files :=
  if answer = .failed then ({ process with task := .idle }, files)
  else if files.pidFile = .missing then
    ({ process with task := .checkPlaceholder purpose startedAt lockReplaceRetryDelaysMs },
      { files with pidFile := .placeholder who })
  else ({ process with task := .readExisting false }, files)

/-- A file that cannot be read counts as the empty one that was claimed. -/
def checkPlaceholder (purpose : Purpose) (startedAt : Nat) (delays : List Nat) : Process × Files :=
  if answer = .failed ∨ files.pidFile.text = none then
    ({ process with task := .publishRecord purpose startedAt delays }, files)
  else ({ process with task := .idle }, files)

def Purpose.next : Purpose → Task
  | .start => .acquireWriterLock
  | .heal socketPath => .unlinkStaleSocket socketPath

def publishRecord (purpose : Purpose) (startedAt : Nat) (delays : List Nat) : Process × Files :=
  match answer, delays with
  | .ok, _ =>
    (⟨purpose.next, some ⟨project.lockInfo who startedAt, none⟩⟩,
      { files with pidFile := .content (encodeLockInfo (project.lockInfo who startedAt)) })
  | .refused, _ :: later => ({ process with task := .checkPlaceholder purpose startedAt later }, files)
  | _, _ => ({ process with task := .idle }, files)

def readExisting (again : Bool) : Process × Files :=
  match readPidfileTolerant answer again files.pidFile with
  | none => ({ process with task := .readExisting true }, files)
  | some _ => ({ process with task := .idle }, files)

/-- A departing daemon no longer counts on the lock, and it forgets which socket it bound. -/
def Process.beginCleanup (process : Process) : Process :=
  match process.held with
  | some held => ⟨.corroborate (held.bound.getD held.info.socketPath) false, none⟩
  | none => { process with task := .idle }

/-- The task that tries the candidates in order. -/
def Task.tryCandidates : List String → Task
  | [] => .idle
  | socketPath :: rest => .probeCandidate socketPath rest

/-- A daemon without the writer lock gives its rendezvous up. A live daemon that holds the lock keeps every other one
out, and an index command that holds it answers by a refusal. -/
def acquireWriterLock (alive : Pid → Bool) : Process × Files :=
  match answer, process.held with
  | .ok, some held =>
    if files.writer.any alive then (process.beginCleanup, files)
    else
      ({ process with task := .tryCandidates (project.socketCandidateChain held.info.socketPath) },
        { files with writer := some who })
  | .refused, _ => (process.beginCleanup, files)
  | _, _ => ({ process with task := .idle }, files)

def probeCandidate (socketPath : String) (rest : List String) : Process × Files :=
  if (files.sockets socketPath).isSome then ({ process with task := .unlinkCandidate socketPath rest }, files)
  else ({ process with task := .bindCandidate socketPath rest }, files)

/-- A path that is taken does not bind, and the next candidate is tried. -/
def bindCandidate (socketPath : String) (rest : List String) : Process × Files :=
  if answer = .ok ∧ files.sockets socketPath = none then
    (⟨.rereadRecord socketPath, process.held.map fun held => { held with bound := some socketPath }⟩,
      { files with sockets := Function.update files.sockets socketPath (some who) })
  else ({ process with task := .tryCandidates rest }, files)

def rereadRecord (socketPath : String) : Process × Files :=
  match readPidfileOnce answer files.pidFile with
  | .content raw =>
    match decodeLockInfo raw with
    | some info => ({ process with task := .recheckRecord socketPath raw info lockReplaceRetryDelaysMs }, files)
    | none => ({ process with task := .idle }, files)
  | _ => ({ process with task := .idle }, files)

def recheckRecord (socketPath : String) (raw : LockText) (info : DaemonLockInfo) (delays : List Nat) :
    Process × Files :=
  if answer ≠ .failed ∧ files.pidFile.text = some raw then
    ({ process with task := .rewriteRecord socketPath raw info delays }, files)
  else ({ process with task := .idle }, files)

def rewriteRecord (socketPath : String) (raw : LockText) (info : DaemonLockInfo) (delays : List Nat) :
    Process × Files :=
  match answer, delays with
  | .ok, _ =>
    ({ process with task := .idle },
      { files with pidFile := .content (encodeLockInfo { info with socketPath }) })
  | .refused, _ :: later => ({ process with task := .recheckRecord socketPath raw info later }, files)
  | _, _ => ({ process with task := .idle }, files)

/-- Only a record that names this process lets it clean up. -/
def corroborate (named retry : Task) (again : Bool) : Process × Files :=
  match readPidfileTolerant answer again files.pidFile with
  | none => ({ process with task := retry }, files)
  | some outcome =>
    if outcome.names who then ({ process with task := named }, files) else ({ process with task := .idle }, files)

def removePidFile (removed : Task) : Process × Files :=
  if answer = .failed ∨ files.pidFile = .missing then ({ process with task := .idle }, files)
  else ({ process with task := removed }, { files with pidFile := .missing })

def readRecordedSocket (again : Bool) : Process × Files :=
  match readPidfileTolerant answer again files.pidFile with
  | none => ({ process with task := .readRecordedSocket true }, files)
  | some outcome =>
    ({ process with task := .readStale none (some (project.recordedSocketPath outcome)) false }, files)

/-- A cleared lock is claimed again by a cleaner that heals a socket. -/
def Task.afterClear (now : Nat) : Option String → Task
  | some socketPath => .claimPlaceholder (.heal socketPath) now
  | none => .idle

/-- An empty file is an unfinished claim and is never cleared. -/
def readStale (expectedDeadPid : Option Pid) (heal : Option String) (again : Bool) : Process × Files :=
  match readPidfileTolerant answer again files.pidFile with
  | none => ({ process with task := .readStale expectedDeadPid heal true }, files)
  | some .missing => ({ process with task := .afterClear now heal }, files)
  | some (.content raw) => ({ process with task := .judgeStale expectedDeadPid heal raw }, files)
  | some _ => ({ process with task := .idle }, files)

/-- A record of a live process is never cleared. -/
def judgeStale (alive : Pid → Bool) (expectedDeadPid : Option Pid) (heal : Option String) (raw : LockText) :
    Process × Files :=
  match decodeLockInfo raw with
  | some info =>
    if expectedDeadPid.any (· ≠ info.pid) then ({ process with task := .idle }, files)
    else if 0 < info.pid ∧ alive info.pid then ({ process with task := .idle }, files)
    else ({ process with task := .removeStale heal raw }, files)
  | none => ({ process with task := .removeStale heal raw }, files)

/-- One file step of a process. -/
def perform (alive : Pid → Bool) : Process × Files :=
  match process.task with
  | .idle => (process, files)
  | .claimPlaceholder purpose startedAt => claimPlaceholder who answer process files purpose startedAt
  | .checkPlaceholder purpose startedAt delays => checkPlaceholder answer process files purpose startedAt delays
  | .publishRecord purpose startedAt delays => publishRecord project who answer process files purpose startedAt delays
  | .readExisting again => readExisting answer process files again
  | .acquireWriterLock => acquireWriterLock project who answer process files alive
  | .probeCandidate socketPath rest => probeCandidate process files socketPath rest
  | .unlinkCandidate socketPath rest =>
    ({ process with task := .bindCandidate socketPath rest }, files.unlink answer socketPath)
  | .bindCandidate socketPath rest => bindCandidate who answer process files socketPath rest
  | .rereadRecord socketPath => rereadRecord answer process files socketPath
  | .recheckRecord socketPath raw info delays => recheckRecord answer process files socketPath raw info delays
  | .rewriteRecord socketPath raw info delays => rewriteRecord answer process files socketPath raw info delays
  | .corroborate socketPath again =>
    corroborate who answer process files (.unlinkOwnSocket socketPath) (.corroborate socketPath true) again
  | .unlinkOwnSocket socketPath =>
    ({ process with task := .corroborateRelease false }, files.unlink answer socketPath)
  | .corroborateRelease again =>
    corroborate who answer process files .removeOwnRecord (.corroborateRelease true) again
  | .removeOwnRecord => removePidFile answer process files .idle
  | .readRecordedSocket again => readRecordedSocket project answer process files again
  | .readStale expectedDeadPid heal again => readStale answer now process files expectedDeadPid heal again
  | .judgeStale expectedDeadPid heal raw => judgeStale process files alive expectedDeadPid heal raw
  | .removeStale heal _ => removePidFile answer process files (.afterClear now heal)
  | .unlinkStaleSocket socketPath => (⟨.corroborateRelease false, none⟩, files.unlink answer socketPath)

end Steps

/-- The functions a resting process may enter. -/
inductive Call where
  | tryAcquireDaemonLock
  | clearStaleDaemonLock (expectedDeadPid : Option Pid)
  | clearStaleDaemonSocket
  | cleanupOwnedRendezvous
  deriving DecidableEq

def Process.enter (process : Process) (now : Nat) : Call → Process
  | .tryAcquireDaemonLock => { process with task := .claimPlaceholder .start now }
  | .clearStaleDaemonLock expectedDeadPid => { process with task := .readStale expectedDeadPid none false }
  | .clearStaleDaemonSocket => { process with task := .readRecordedSocket false }
  | .cleanupOwnedRendezvous => process.beginCleanup

inductive Action where
  | call (function : Call) (now : Nat)
  | proceed (answer : Answer) (now : Nat)
  | dropWriterLock
  | die
  deriving DecidableEq

structure State where
  alive : Pid → Bool
  processes : Pid → Process
  files : Files

/-- A daemon keeps the writer lock until it has cleaned up, or until no candidate could be bound. -/
def State.mayDropWriterLock (state : State) (who : Pid) : Bool :=
  decide (state.files.writer = some who ∧ (state.processes who).task = .idle) &&
    ((state.processes who).held.bind Held.bound).isNone

/-- Only live processes step, a resting one enters a function, and a busy one takes its next file step. -/
def step (project : Project) (who : Pid) (action : Action) (state : State) : Option State :=
  if state.alive who = false then none
  else
    match action with
    | .die => some { state with alive := Function.update state.alive who false }
    | .call function now =>
      if (state.processes who).task = .idle then
        some { state with
          processes := Function.update state.processes who ((state.processes who).enter now function) }
      else none
    | .proceed answer now =>
      let performed := perform project who answer now (state.processes who) state.files state.alive
      some { state with
        processes := Function.update state.processes who performed.1
        files := performed.2 }
    | .dropWriterLock =>
      if state.mayDropWriterLock who then some { state with files := { state.files with writer := none } } else none

def run (project : Project) : List (Pid × Action) → State → Option State
  | [], state => some state
  | (who, action) :: rest, state => (step project who action state).bind (run project rest)

/-- At first every process rests, and the files are whatever earlier processes left. -/
def initial (files : Files) (running : Pid → Bool) : State where
  alive := fun pid => decide (0 < pid) && running pid
  processes := fun _ => .resting
  files := files

end Codegraph.Daemon
