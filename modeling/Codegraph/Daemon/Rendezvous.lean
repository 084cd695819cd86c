import Codegraph.Daemon.Lock

/- This file shows when a live daemon keeps its lock record and its socket. -/

namespace Codegraph.Daemon

/-- The process that a pid file stands for. -/
def PidFile.owner : PidFile → Option Pid
  | .missing => none
  | .placeholder creator => some creator
  | .content raw => (decodeLockInfo raw).map DaemonLockInfo.pid

/-- No live process has claimed the pid file between a cleaner's read and its remove. -/
def undisturbed (who : Pid) (action : Action) (state : State) : Bool :=
  match action, (state.processes who).task with
  | .proceed answer _, .removeStale _ raw =>
    decide (answer = .failed) || decide (state.files.pidFile = .content raw) ||
      !(state.files.pidFile.owner.any state.alive)
  | _, _ => true

/-- Every remove of the run is undisturbed. -/
def undisturbedAll (project : Project) : List (Pid × Action) → State → Bool
  | [], _ => true
  | (who, action) :: rest, state =>
    undisturbed who action state &&
      (match step project who action state with
      | some next => undisturbedAll project rest next
      | none => true)

/-- A live process holds the lock from its acquisition until it begins its own cleanup. -/
def State.holds (state : State) (pid : Pid) : Bool := state.alive pid && (state.processes pid).held.isSome

/-- A live process is publishing from its placeholder on until its record is in place. -/
def State.publishes (state : State) (pid : Pid) : Bool :=
  state.alive pid &&
    (match (state.processes pid).task with
    | .checkPlaceholder _ _ _ => true
    | .publishRecord _ _ _ => true
    | _ => false)

/-- What a process expects to find in the pid file. -/
inductive Claim where
  | none
  | placeholder
  | record
  deriving DecidableEq

def Process.claim (process : Process) : Claim :=
  match process.task with
  | .checkPlaceholder _ _ _ => .placeholder
  | .publishRecord _ _ _ => .placeholder
  | .corroborate _ _ => .record
  | .unlinkOwnSocket _ => .record
  | .corroborateRelease _ => .record
  | .removeOwnRecord => .record
  | _ => if process.held.isSome then .record else .none

/-- The pid file is what the process expects. -/
def Claim.Met (claim : Claim) (who : Pid) (file : PidFile) : Prop :=
  match claim with
  | .none => True
  | .placeholder => file = .placeholder who
  | .record => ∃ info : DaemonLockInfo, file = .content (.json info) ∧ info.pid = who

/-- What each task knows about its own process. -/
def Process.Sound (who : Pid) (process : Process) : Prop :=
  match process.task with
  | .checkPlaceholder _ _ _ => process.held = none
  | .publishRecord _ _ _ => process.held = none
  | .acquireWriterLock => ∃ held, process.held = some held ∧ held.bound = none
  | .probeCandidate _ _ => ∃ held, process.held = some held ∧ held.bound = none
  | .unlinkCandidate _ _ => ∃ held, process.held = some held ∧ held.bound = none
  | .bindCandidate _ _ => ∃ held, process.held = some held ∧ held.bound = none
  | .unlinkStaleSocket _ => ∃ held, process.held = some held ∧ held.bound = none
  | .rereadRecord _ => process.held.isSome = true
  | .recheckRecord _ _ info _ => process.held.isSome = true ∧ info.pid = who
  | .rewriteRecord _ _ info _ => process.held.isSome = true ∧ info.pid = who
  | .corroborate _ _ => process.held = none
  | .unlinkOwnSocket _ => process.held = none
  | .corroborateRelease _ => process.held = none
  | .removeOwnRecord => process.held = none
  | _ => True

/-- A claim that is met names the process that the file stands for. -/
theorem Claim.Met.owner {claim : Claim} {who : Pid} {file : PidFile} (met : claim.Met who file)
    (claimed : claim ≠ .none) : file.owner = some who := by
  cases claim with
  | none => exact absurd rfl claimed
  | placeholder =>
    change file = _ at met
    rw [met]
    rfl
  | record =>
    obtain ⟨info, found, same⟩ := met
    rw [found, ← same]
    rfl

/-- How a step leaves its own process and what it may change for the others. -/
structure Fares (who : Pid) (process : Process) (files : Files) (performed : Process × Files) : Prop where
  sound : performed.1.Sound who
  met : performed.1.claim.Met who performed.2.pidFile
  bound : ∀ held socketPath, performed.1.held = some held → held.bound = some socketPath →
    performed.2.sockets socketPath = some who
  file : performed.2.pidFile = files.pidFile ∨ files.pidFile = .missing ∨ process.claim ≠ .none ∨
    ∃ heal raw, process.task = .removeStale heal raw
  sockets : performed.2.sockets = files.sockets ∨
    (process.claim ≠ .none ∧ ∀ held, process.held = some held → held.bound = none)

section Steps

variable {project : Project} {who : Pid} {answer : Answer} {now : Nat} {process : Process} {files : Files}
  {purpose : Purpose} {startedAt : Nat} {delays : List Nat} {again : Bool} {alive : Pid → Bool} {socketPath : String}
  {raw : LockText} {info : DaemonLockInfo} {expectedDeadPid : Option Pid} {heal : Option String}

/-- The invariant of one live process. -/
structure Process.Keeps (who : Pid) (process : Process) (files : Files) : Prop where
  sound : process.Sound who
  met : process.claim.Met who files.pidFile
  bound : ∀ held socketPath, process.held = some held → held.bound = some socketPath →
    files.sockets socketPath = some who

theorem Process.Keeps.lockWriter (keeps : process.Keeps who files) (writer : Option Pid) :
    process.Keeps who { files with writer } :=
  ⟨keeps.sound, keeps.met, keeps.bound⟩

theorem Process.Keeps.at {task : Task} (keeps : process.Keeps who files) (busy : process.task = task) :
    Process.Sound who ⟨task, process.held⟩ :=
  busy ▸ keeps.sound

theorem claim_at {task : Task} (busy : process.task = task) : process.claim = Process.claim ⟨task, process.held⟩ :=
  busy ▸ rfl

/-- A process that holds the lock claims its record. -/
theorem claim_of_held (sound : process.Sound who) (held : process.held.isSome = true) : process.claim = .record := by
  unfold Process.Sound at sound
  unfold Process.claim
  cases task : process.task <;> simp only [task] at sound ⊢ <;> first | rw [if_pos held] | rfl | skip
  all_goals
    rw [sound] at held
    cases held

section

variable (keeps : process.Keeps who files)
include keeps

/-- A process that waits for nothing claims what it holds. -/
theorem idle_met : (Process.claim { process with task := .idle }).Met who files.pidFile := by
  change (if process.held.isSome then Claim.record else Claim.none).Met who files.pidFile
  by_cases held : process.held.isSome = true
  · have met := keeps.met
    rw [claim_of_held keeps.sound held] at met
    rw [if_pos held]
    exact met
  · rw [if_neg held]
    trivial

/-- A step that only moves on keeps every file. -/
theorem Process.Keeps.moveTo (task : Task) (sound : Process.Sound who { process with task })
    (neutral : Process.claim { process with task } = Process.claim { process with task := .idle }) :
    Fares who process files ({ process with task }, files) where
  sound := sound
  met := neutral ▸ idle_met keeps
  bound := keeps.bound
  file := .inl rfl
  sockets := .inl rfl

theorem Process.Keeps.rest : Fares who process files ({ process with task := .idle }, files) :=
  keeps.moveTo .idle trivial rfl

/-- A step between tasks that claim the same keeps the claim. -/
theorem Process.Keeps.claimOn (task : Task) (sound : Process.Sound who { process with task })
    (same : Process.claim { process with task } = process.claim) :
    Fares who process files ({ process with task }, files) where
  sound := sound
  met := same ▸ keeps.met
  bound := keeps.bound
  file := .inl rfl
  sockets := .inl rfl

/-- A process whose file is missing holds nothing. -/
theorem held_none_of_missing (missing : files.pidFile = .missing) : process.held = none := by
  cases held : process.held with
  | none => rfl
  | some lock =>
    have met := keeps.met
    rw [claim_of_held keeps.sound (by rw [held]; rfl), missing] at met
    obtain ⟨info, impossible, _⟩ := met
    cases impossible

theorem claimPlaceholder_fares :
    Fares who process files (claimPlaceholder who answer process files purpose startedAt) := by
  unfold claimPlaceholder
  split
  · exact keeps.rest
  · split
    · rename_i missing
      have held := held_none_of_missing keeps missing
      refine ⟨held, rfl, ?_, .inr (.inl missing), .inl rfl⟩
      intro lock socketPath found
      rw [held] at found
      cases found
    · exact keeps.moveTo _ trivial rfl

theorem checkPlaceholder_fares (busy : process.task = .checkPlaceholder purpose startedAt delays) :
    Fares who process files (checkPlaceholder answer process files purpose startedAt delays) := by
  have held : process.held = none := keeps.at busy
  unfold checkPlaceholder
  split
  · exact keeps.claimOn _ held (claim_at busy).symm
  · exact keeps.rest

theorem publishRecord_fares (busy : process.task = .publishRecord purpose startedAt delays) :
    Fares who process files (publishRecord project who answer process files purpose startedAt delays) := by
  have held : process.held = none := keeps.at busy
  have claimed : process.claim = .placeholder := claim_at busy
  unfold publishRecord
  split
  · refine ⟨?_, ?_, ?_, ?_, .inl rfl⟩
    · cases purpose <;> exact ⟨_, rfl, rfl⟩
    · cases purpose <;> exact ⟨_, rfl, rfl⟩
    · intro lock socketPath found unbound
      cases found
      cases unbound
    · rw [claimed]
      exact .inr (.inr (.inl (by decide)))
  · exact keeps.claimOn _ held claimed.symm
  · exact keeps.rest

theorem readExisting_fares : Fares who process files (readExisting answer process files again) := by
  unfold readExisting
  split
  · exact keeps.moveTo _ trivial rfl
  · exact keeps.rest

/-- A departing process keeps its claim while it gives its lock up. -/
theorem beginCleanup_fares : Fares who process files (process.beginCleanup, files) := by
  unfold Process.beginCleanup
  cases held : process.held with
  | none =>
    have rest := keeps.rest
    rw [held] at rest
    exact rest
  | some lock =>
    have met := keeps.met
    rw [claim_of_held keeps.sound (by rw [held]; rfl)] at met
    exact ⟨rfl, met, fun _ _ found => (by cases found), .inl rfl, .inl rfl⟩

/-- The candidates are tried by a process that has bound none. -/
theorem tryCandidates_fares (candidates : List String)
    (unbound : ∃ held, process.held = some held ∧ held.bound = none) :
    Fares who process files ({ process with task := .tryCandidates candidates }, files) := by
  cases candidates with
  | nil => exact keeps.rest
  | cons socketPath rest => exact keeps.moveTo _ unbound rfl

end

/-- Nobody reads from the writer lock who holds the rendezvous. -/
theorem Fares.lockWriter {reached : Process} (fares : Fares who process files (reached, files)) (writer : Option Pid) :
    Fares who process files (reached, { files with writer }) :=
  ⟨fares.sound, fares.met, fares.bound, fares.file, fares.sockets⟩

section

variable (keeps : process.Keeps who files)
include keeps

theorem acquireWriterLock_fares (busy : process.task = .acquireWriterLock) :
    Fares who process files (acquireWriterLock project who answer process files alive) := by
  unfold acquireWriterLock
  split
  · split
    · exact beginCleanup_fares keeps
    · exact (tryCandidates_fares keeps _ (keeps.at busy)).lockWriter _
  · exact beginCleanup_fares keeps
  · exact keeps.rest

theorem probeCandidate_fares {rest : List String} (busy : process.task = .probeCandidate socketPath rest) :
    Fares who process files (probeCandidate process files socketPath rest) := by
  have unbound : ∃ held, process.held = some held ∧ held.bound = none := keeps.at busy
  unfold probeCandidate
  split
  · exact keeps.moveTo _ unbound rfl
  · exact keeps.moveTo _ unbound rfl

/-- A holder that has bound no socket may unlink any. -/
theorem unlink_fares {reached : Process}
    (claimed : process.claim = .record) (sound : reached.Sound who) (same : reached.claim = .record)
    (unbound : ∀ held, process.held = some held → held.bound = none)
    (kept : ∀ held, reached.held = some held → process.held = some held) :
    Fares who process files (reached, files.unlink answer socketPath) := by
  have unread : (files.unlink answer socketPath).pidFile = files.pidFile := by
    unfold Files.unlink
    split <;> rfl
  refine ⟨sound, ?_, ?_, .inl unread, .inr ⟨?_, unbound⟩⟩
  · have met := keeps.met
    rw [claimed] at met
    rw [same, unread]
    exact met
  · intro held other found bound
    rw [unbound held (kept held found)] at bound
    cases bound
  · rw [claimed]
    decide

theorem bindCandidate_fares {rest : List String} (busy : process.task = .bindCandidate socketPath rest) :
    Fares who process files (bindCandidate who answer process files socketPath rest) := by
  have unbound : ∃ held, process.held = some held ∧ held.bound = none := keeps.at busy
  obtain ⟨lock, found, none_⟩ := unbound
  have claimed : process.claim = .record := claim_of_held keeps.sound (by rw [found]; rfl)
  unfold bindCandidate
  split
  · have met := keeps.met
    rw [claimed] at met
    rw [found]
    refine ⟨rfl, met, ?_, .inl rfl, .inr ⟨?_, ?_⟩⟩
    · intro held other same bound
      cases same
      cases bound
      exact Function.update_self ..
    · rw [claimed]
      decide
    · intro held same
      rw [found] at same
      cases same
      exact none_
  · exact tryCandidates_fares keeps rest ⟨lock, found, none_⟩

/-- The record that a holder reads is its own. -/
theorem rereadRecord_fares (busy : process.task = .rereadRecord socketPath) :
    Fares who process files (rereadRecord answer process files socketPath) := by
  have held : process.held.isSome = true := keeps.at busy
  have met := keeps.met
  rw [claim_of_held keeps.sound held] at met
  obtain ⟨own, file, same⟩ := met
  unfold rereadRecord readPidfileOnce
  rw [file]
  by_cases failed : answer = .failed
  · simp only [if_pos failed]
    exact keeps.rest
  · simp only [if_neg failed, decodeLockInfo]
    exact keeps.moveTo _ ⟨held, same⟩ rfl

theorem recheckRecord_fares (busy : process.task = .recheckRecord socketPath raw info delays) :
    Fares who process files (recheckRecord answer process files socketPath raw info delays) := by
  have known : process.held.isSome = true ∧ info.pid = who := keeps.at busy
  unfold recheckRecord
  split
  · exact keeps.moveTo _ known rfl
  · exact keeps.rest

theorem rewriteRecord_fares (busy : process.task = .rewriteRecord socketPath raw info delays) :
    Fares who process files (rewriteRecord answer process files socketPath raw info delays) := by
  have known : process.held.isSome = true ∧ info.pid = who := keeps.at busy
  unfold rewriteRecord
  split
  · refine ⟨trivial, ?_, keeps.bound, .inr (.inr (.inl ?_)), .inl rfl⟩
    · change (if process.held.isSome then Claim.record else Claim.none).Met who _
      rw [if_pos known.1]
      exact ⟨_, rfl, known.2⟩
    · rw [claim_of_held keeps.sound known.1]
      decide
  · exact keeps.moveTo _ known rfl
  · exact keeps.rest

/-- A process that corroborates its record moves on to a task with the same claim. -/
theorem corroborate_fares {named retry : Task} (onNamed : Process.Sound who { process with task := named } ∧
      Process.claim { process with task := named } = process.claim)
    (onRetry : Process.Sound who { process with task := retry } ∧
      Process.claim { process with task := retry } = process.claim) :
    Fares who process files (corroborate who answer process files named retry again) := by
  unfold corroborate
  split
  · exact keeps.claimOn _ onRetry.1 onRetry.2
  · split
    · exact keeps.claimOn _ onNamed.1 onNamed.2
    · exact keeps.rest

theorem removeOwnRecord_fares (busy : process.task = .removeOwnRecord) :
    Fares who process files (removePidFile answer process files .idle) := by
  have held : process.held = none := keeps.at busy
  unfold removePidFile
  split
  · exact keeps.rest
  · refine ⟨trivial, ?_, keeps.bound, .inr (.inr (.inl ?_)), .inl rfl⟩
    · change (if process.held.isSome then Claim.record else Claim.none).Met who _
      rw [held]
      trivial
    · rw [claim_at busy]
      exact fun impossible => Claim.noConfusion impossible

theorem readRecordedSocket_fares : Fares who process files (readRecordedSocket project answer process files again) := by
  unfold readRecordedSocket
  split
  · exact keeps.moveTo _ trivial rfl
  · exact keeps.moveTo _ trivial rfl

end

theorem afterClear_sound (heal : Option String) : Process.Sound who { process with task := .afterClear now heal } := by
  cases heal with
  | none => trivial
  | some socketPath => trivial

theorem afterClear_claim (heal : Option String) : Process.claim { process with task := .afterClear now heal } =
      Process.claim { process with task := .idle } := by
  cases heal with
  | none => rfl
  | some socketPath => rfl

theorem readStale_fares (keeps : process.Keeps who files) :
    Fares who process files (readStale answer now process files expectedDeadPid heal again) := by
  unfold readStale
  split
  · exact keeps.moveTo _ trivial rfl
  · exact keeps.moveTo _ (afterClear_sound heal) (afterClear_claim heal)
  · exact keeps.moveTo _ trivial rfl
  · exact keeps.rest

theorem judgeStale_fares (keeps : process.Keeps who files) :
    Fares who process files (judgeStale process files alive expectedDeadPid heal raw) := by
  unfold judgeStale
  split
  · split
    · exact keeps.rest
    · split
      · exact keeps.rest
      · exact keeps.moveTo _ trivial rfl
  · exact keeps.moveTo _ trivial rfl

/-- A cleaner that claims nothing may remove the file. -/
theorem removeStale_fares (keeps : process.Keeps who files)
    (busy : process.task = .removeStale heal raw) (unclaimed : answer ≠ .failed → process.claim = .none) :
    Fares who process files (removePidFile answer process files (.afterClear now heal)) := by
  unfold removePidFile
  split
  · exact keeps.rest
  · rename_i removed
    refine ⟨afterClear_sound heal, ?_, keeps.bound, .inr (.inr (.inr ⟨heal, raw, busy⟩)), .inl rfl⟩
    have none_ : Process.claim { process with task := .idle } = .none := 
      (claim_at busy).symm.trans (unclaimed fun failed => removed (.inl failed))
    rw [afterClear_claim heal, none_]
    trivial

/-- Every file step fares so, when a cleaner that removes claims nothing itself. -/
theorem perform_fares {alive : Pid → Bool} (keeps : process.Keeps who files)
    (unclaimed : ∀ heal raw, process.task = .removeStale heal raw → answer ≠ .failed → process.claim = .none) :
    Fares who process files (perform project who answer now process files alive) := by
  unfold perform
  split
  · rename_i busy
    have rest := keeps.rest
    rw [← busy] at rest
    exact rest
  · exact claimPlaceholder_fares keeps
  · exact checkPlaceholder_fares keeps ‹_›
  · exact publishRecord_fares keeps ‹_›
  · exact readExisting_fares keeps
  · exact acquireWriterLock_fares keeps ‹_›
  · exact probeCandidate_fares keeps ‹_›
  · rename_i socketPath rest busy
    have unbound : ∃ held, process.held = some held ∧ held.bound = none := keeps.at busy
    obtain ⟨lock, found, none_⟩ := unbound
    have held : process.held.isSome = true := by rw [found]; rfl
    refine unlink_fares keeps (claim_of_held keeps.sound held) ⟨lock, found, none_⟩ (if_pos held) ?_
      fun _ same => same
    intro other same
    rw [found] at same
    cases same
    exact none_
  · exact bindCandidate_fares keeps ‹_›
  · exact rereadRecord_fares keeps ‹_›
  · exact recheckRecord_fares keeps ‹_›
  · exact rewriteRecord_fares keeps ‹_›
  · rename_i socketPath again busy
    have held : process.held = none := keeps.at busy
    exact corroborate_fares keeps ⟨held, (claim_at busy).symm⟩ ⟨held, (claim_at busy).symm⟩
  · rename_i socketPath busy
    have held : process.held = none := keeps.at busy
    refine unlink_fares keeps (claim_at busy) held rfl ?_ fun _ same => same
    intro other same
    rw [held] at same
    cases same
  · rename_i again busy
    have held : process.held = none := keeps.at busy
    exact corroborate_fares keeps ⟨held, (claim_at busy).symm⟩ ⟨held, (claim_at busy).symm⟩
  · exact removeOwnRecord_fares keeps ‹_›
  · exact readRecordedSocket_fares keeps
  · exact readStale_fares keeps
  · exact judgeStale_fares keeps
  · rename_i heal raw busy
    exact removeStale_fares keeps busy (unclaimed heal raw busy)
  · rename_i socketPath busy
    have unbound : ∃ held, process.held = some held ∧ held.bound = none := keeps.at busy
    obtain ⟨lock, found, none_⟩ := unbound
    refine unlink_fares keeps (claim_of_held keeps.sound (by rw [found]; rfl)) rfl rfl ?_
      fun _ impossible => (by cases impossible)
    intro other same
    rw [found] at same
    cases same
    exact none_

/-- A judged record names no live process. -/
theorem judgeStale_judges {other : Option String} {judged : LockText} (nobody : alive 0 = false)
    (judging : (judgeStale process files alive expectedDeadPid heal raw).1.task = .removeStale other judged)
    (decoded : decodeLockInfo judged = some info) : alive info.pid = false := by
  unfold judgeStale at judging
  cases found : decodeLockInfo raw with
  | none =>
    simp only [found] at judging
    cases judging
    rw [found] at decoded
    cases decoded
  | some known =>
    simp only [found] at judging
    split at judging
    · cases judging
    · split at judging
      · cases judging
      · rename_i dead
        cases judging
        rw [found] at decoded
        cases decoded
        rcases Nat.eq_zero_or_pos info.pid with zero | positive
        · rw [zero]
          exact nobody
        · exact Bool.eq_false_iff.mpr fun living => dead ⟨positive, living⟩

/-- Only a judgement leads to a removal. -/
theorem perform_judges (nobody : alive 0 = false)
    (judging : (perform project who answer now process files alive).1.task = .removeStale heal raw)
    (decoded : decodeLockInfo raw = some info) : alive info.pid = false := by
  unfold perform at judging
  split at judging
  case h_19 => exact judgeStale_judges nobody judging decoded
  case h_1 busy =>
    rw [busy] at judging
    cases judging
  all_goals
    try simp only [claimPlaceholder, checkPlaceholder, publishRecord, readExisting, acquireWriterLock, probeCandidate,
      bindCandidate, rereadRecord, recheckRecord, rewriteRecord, corroborate, removePidFile, readRecordedSocket,
      readStale, Process.beginCleanup, Purpose.next, Task.tryCandidates, Task.afterClear] at judging
    repeat' split at judging
    all_goals cases judging

end Steps

/-- What every reachable state keeps while the removes are undisturbed. -/
structure Guarded (state : State) : Prop where
  nobody : state.alive 0 = false
  keeps : ∀ pid, state.alive pid = true → (state.processes pid).Keeps pid state.files
  judged : ∀ pid heal raw info, (state.processes pid).task = .removeStale heal raw →
    decodeLockInfo raw = some info → state.alive info.pid = false

section Runs

variable {project : Project} {state next : State} {who pid other : Pid} {action : Action} {performed : Process × Files}

/-- The pid file stands for at most one live process. -/
theorem Guarded.exclusive (guarded : Guarded state) (first : state.alive pid = true)
    (second : state.alive other = true) (claimed : (state.processes pid).claim ≠ .none)
    (rival : (state.processes other).claim ≠ .none) : pid = other := by
  have mine := (guarded.keeps pid first).met.owner claimed
  have theirs := (guarded.keeps other second).met.owner rival
  rw [mine] at theirs
  exact Option.some.inj theirs

/-- An undisturbed remove finds no live process with a claim. -/
theorem Guarded.unclaimed (guarded : Guarded state) {answer : Answer} {now : Nat} {heal : Option String}
    {raw : LockText} (busy : (state.processes who).task = .removeStale heal raw) (removes : answer ≠ .failed)
    (quiet : undisturbed who (.proceed answer now) state = true) (living : state.alive pid = true) :
    (state.processes pid).claim = .none := by
  by_contra claimed
  have owner := (guarded.keeps pid living).met.owner claimed
  unfold undisturbed at quiet
  rw [busy] at quiet
  simp only [Bool.or_eq_true, decide_eq_true_eq, Bool.not_eq_true'] at quiet
  rcases quiet with (failed | same) | dead
  · exact removes failed
  · rw [same] at owner
    obtain ⟨info, decoded, named⟩ := Option.map_eq_some_iff.mp owner
    have dead := guarded.judged who heal raw info busy decoded
    rw [named, living] at dead
    cases dead
  · rw [owner, Option.any_some, living] at dead
    cases dead

section

variable (guarded : Guarded state) (fares : Fares who (state.processes who) state.files performed)
  (running : state.alive who = true) (unclaimed : performed.2.pidFile ≠ state.files.pidFile →
    ∀ heal raw, (state.processes who).task = .removeStale heal raw →
      ∀ pid, state.alive pid = true → (state.processes pid).claim = .none)
include guarded fares running unclaimed

/-- A step of one process leaves another live process with a claim its files. -/
theorem Guarded.spares (living : state.alive pid = true) (different : pid ≠ who)
    (claimed : (state.processes pid).claim ≠ .none) :
    performed.2.pidFile = state.files.pidFile ∧ performed.2.sockets = state.files.sockets := by
  have alone : (state.processes who).claim = .none := by
    by_contra rival
    exact different (guarded.exclusive living running claimed rival)
  constructor
  · rcases fares.file with same | missing | rival | ⟨heal, raw, busy⟩
    · exact same
    · have owner := (guarded.keeps pid living).met.owner claimed
      rw [missing] at owner
      cases owner
    · exact absurd alone rival
    · by_contra changed
      exact claimed (unclaimed changed heal raw busy pid living)
  · rcases fares.sockets with same | ⟨rival, _⟩
    · exact same
    · exact absurd alone rival

/-- A step that fares well keeps the whole state guarded. -/
theorem Guarded.after
    (judges : ∀ heal raw info, performed.1.task = .removeStale heal raw → decodeLockInfo raw = some info →
      state.alive info.pid = false) : Guarded { state with
      processes := Function.update state.processes who performed.1
      files := performed.2 } := by
  refine ⟨guarded.nobody, ?_, ?_⟩
  · intro pid living
    dsimp only at living ⊢
    by_cases same : pid = who
    · subst same
      rw [Function.update_self]
      exact ⟨fares.sound, fares.met, fares.bound⟩
    · have keeps := guarded.keeps pid living
      rw [Function.update_of_ne same]
      by_cases claimed : (state.processes pid).claim = .none
      · refine ⟨keeps.sound, by rw [claimed]; trivial, ?_⟩
        intro held socketPath found
        have record := claim_of_held keeps.sound (by rw [found]; rfl)
        rw [claimed] at record
        cases record
      · obtain ⟨file, sockets⟩ := guarded.spares fares running unclaimed living same claimed
        refine ⟨keeps.sound, file ▸ keeps.met, ?_⟩
        rw [sockets]
        exact keeps.bound
  · intro pid heal raw info busy
    dsimp only at busy
    by_cases same : pid = who
    · subst same
      rw [Function.update_self] at busy
      exact judges heal raw info busy
    · rw [Function.update_of_ne same] at busy
      exact guarded.judged pid heal raw info busy

/-- What a step leaves to the processes that claim the pid file. -/
structure Spared (who : Pid) (state next : State) : Prop where
  file : ∀ pid, state.alive pid = true → pid ≠ who → (state.processes pid).claim ≠ .none →
    next.files.pidFile = state.files.pidFile
  sockets : ∀ pid held socketPath, state.alive pid = true → (state.processes pid).held = some held →
    held.bound = some socketPath → next.files.sockets socketPath = state.files.sockets socketPath

/-- A file step keeps the state guarded and spares the others. -/
theorem Guarded.proceed : Spared who state { state with
      processes := Function.update state.processes who performed.1
      files := performed.2 } := by
  constructor
  · intro pid living different claimed
    exact (guarded.spares fares running unclaimed living different claimed).1
  · intro pid held socketPath living found bound
    have record := claim_of_held (guarded.keeps pid living).sound (by rw [found]; rfl)
    have claimed : (state.processes pid).claim ≠ .none := by
      rw [record]
      decide
    by_cases same : pid = who
    · subst same
      rcases fares.sockets with unchanged | ⟨_, unbound⟩
      · exact congrFun unchanged socketPath
      · rw [unbound held found] at bound
        cases bound
    · exact congrFun (guarded.spares fares running unclaimed living same claimed).2 socketPath

end

theorem Spared.untouched (file : next.files.pidFile = state.files.pidFile)
    (sockets : next.files.sockets = state.files.sockets) : Spared who state next :=
  ⟨fun _ _ _ _ => file, fun _ _ _ _ _ _ => by rw [sockets]⟩

theorem enter_fares {process : Process} {files : Files} {now : Nat} {function : Call}
    (keeps : process.Keeps who files) : Fares who process files (process.enter now function, files) := by
  cases function with
  | tryAcquireDaemonLock => exact keeps.moveTo _ trivial rfl
  | clearStaleDaemonLock expectedDeadPid => exact keeps.moveTo _ trivial rfl
  | clearStaleDaemonSocket => exact keeps.moveTo _ trivial rfl
  | cleanupOwnedRendezvous => exact beginCleanup_fares keeps

theorem enter_task {process : Process} {now : Nat} {function : Call} {heal : Option String} {raw : LockText} :
    (process.enter now function).task ≠ .removeStale heal raw := by
  cases function with
  | tryAcquireDaemonLock => exact Task.noConfusion
  | clearStaleDaemonLock expectedDeadPid => exact Task.noConfusion
  | clearStaleDaemonSocket => exact Task.noConfusion
  | cleanupOwnedRendezvous =>
    change process.beginCleanup.task ≠ _
    unfold Process.beginCleanup
    split <;> exact Task.noConfusion

/-- A process that dies takes no claim along. -/
theorem Guarded.die (guarded : Guarded state) (who : Pid) :
    Guarded { state with alive := Function.update state.alive who false } := by
  have dead {pid : Pid} (gone : state.alive pid = false) : Function.update state.alive who false pid = false := by
    by_cases same : pid = who
    · rw [same, Function.update_self]
    · rw [Function.update_of_ne same]
      exact gone
  refine ⟨dead guarded.nobody, ?_, ?_⟩
  · intro pid living
    dsimp only at living ⊢
    by_cases same : pid = who
    · rw [same, Function.update_self] at living
      cases living
    · rw [Function.update_of_ne same] at living
      exact guarded.keeps pid living
  · intro pid heal raw info busy decoded
    exact dead (guarded.judged pid heal raw info busy decoded)

/-- One step of any process keeps the state guarded and spares the others. -/
theorem step_guards (guarded : Guarded state) (stepped : step project who action state = some next)
    (quiet : undisturbed who action state = true) : Guarded next ∧ Spared who state next := by
  unfold step at stepped
  split at stepped
  · cases stepped
  · rename_i living
    have running : state.alive who = true := by simpa using living
    have keeps := guarded.keeps who running
    cases action with
    | die =>
      cases stepped
      exact ⟨guarded.die who, .untouched rfl rfl⟩
    | call function now =>
      simp only at stepped
      split at stepped
      · cases stepped
        refine ⟨guarded.after (enter_fares keeps) running (fun changed => absurd rfl changed) ?_,
          .untouched rfl rfl⟩
        intro heal raw info busy
        exact absurd busy enter_task
      · cases stepped
    | dropWriterLock =>
      simp only at stepped
      split at stepped
      · cases stepped
        have kept : Guarded { state with files := { state.files with writer := none } } :=
          ⟨guarded.nobody, fun pid living => (guarded.keeps pid living).lockWriter none, guarded.judged⟩
        exact ⟨kept, .untouched rfl rfl⟩
      · cases stepped
    | proceed answer now =>
      cases stepped
      have fares := @perform_fares project who answer now _ _ state.alive keeps
        fun heal raw busy removes => guarded.unclaimed busy removes quiet running
      have unclaimed : (perform project who answer now (state.processes who) state.files
          state.alive).2.pidFile ≠ state.files.pidFile →
          ∀ heal raw, (state.processes who).task = .removeStale heal raw →
            ∀ pid, state.alive pid = true → (state.processes pid).claim = .none := by
        intro changed heal raw busy pid living
        refine guarded.unclaimed busy (fun failed => changed ?_) quiet living
        unfold perform
        rw [busy]
        dsimp only
        unfold removePidFile
        rw [if_pos (.inl failed)]
      refine ⟨guarded.after fares running unclaimed ?_, guarded.proceed fares running unclaimed⟩
      intro heal raw info judging decoded
      exact perform_judges guarded.nobody judging decoded

theorem initial_guarded (files : Files) (running : Pid → Bool) : Guarded (initial files running) :=
  ⟨rfl, fun _ _ => ⟨trivial, trivial, fun _ _ found => by cases found⟩, fun _ _ _ _ busy => by cases busy⟩

/-- A run whose removes are all undisturbed ends in a guarded state, and its next step is undisturbed too. -/
theorem run_guards {schedule : List (Pid × Action)} {reached : State} (guarded : Guarded state)
    (ran : run project schedule state = some reached)
    (quiet : undisturbedAll project (schedule ++ [(who, action)]) state = true) :
    Guarded reached ∧ undisturbed who action reached = true := by
  induction schedule generalizing state with
  | nil =>
    cases ran
    rw [List.nil_append, undisturbedAll, Bool.and_eq_true] at quiet
    exact ⟨guarded, quiet.1⟩
  | cons first rest ih =>
    obtain ⟨mover, move⟩ := first
    rw [List.cons_append, undisturbedAll, Bool.and_eq_true] at quiet
    unfold run at ran
    cases moved : step project mover move state with
    | none =>
      rw [moved] at ran
      cases ran
    | some middle =>
      rw [moved] at ran quiet
      exact ih (step_guards guarded moved quiet.1).1 ran quiet.2

end Runs

theorem holds_iff {state : State} {pid : Pid} :
    state.holds pid = true ↔ state.alive pid = true ∧ (state.processes pid).held.isSome = true := by
  unfold State.holds
  rw [Bool.and_eq_true]

theorem publishes_claims {state : State} {pid : Pid} (publishing : state.publishes pid = true) :
    state.alive pid = true ∧ (state.processes pid).claim ≠ .none := by
  unfold State.publishes at publishing
  rw [Bool.and_eq_true] at publishing
  refine ⟨publishing.1, ?_⟩
  unfold Process.claim
  cases busy : (state.processes pid).task <;> simp only [busy] at publishing ⊢
  all_goals first | exact Claim.noConfusion | cases publishing.2

/-- In every interleaving whose removes of stale records are undisturbed, at most one live process holds the lock,
its record is in the pid file, no other process removes or overwrites that record or a placeholder under
publication, and the socket it bound stays in place. -/
theorem live_holder_keeps_rendezvous (project : Project) (files : Files) (running : Pid → Bool)
    (schedule : List (Pid × Action)) (who : Pid) (action : Action) (reached next : State)
    (ran : run project schedule (initial files running) = some reached)
    (stepped : step project who action reached = some next)
    (quiet : undisturbedAll project (schedule ++ [(who, action)]) (initial files running) = true) :
    (∀ pid other, reached.holds pid = true → reached.holds other = true → pid = other) ∧
    (∀ pid, reached.holds pid = true →
      ∃ info, reached.files.pidFile = .content (encodeLockInfo info) ∧ info.pid = pid) ∧
    (∀ pid, reached.holds pid = true ∨ reached.publishes pid = true → pid ≠ who →
      next.files.pidFile = reached.files.pidFile) ∧
    (∀ pid held socketPath, reached.holds pid = true → (reached.processes pid).held = some held →
      held.bound = some socketPath →
      reached.files.sockets socketPath = some pid ∧ next.files.sockets socketPath = some pid) := by
  obtain ⟨guarded, last⟩ := run_guards (initial_guarded files running) ran quiet
  have spared := (step_guards guarded stepped last).2
  have record {pid : Pid} (holding : reached.holds pid = true) :
      reached.alive pid = true ∧ (reached.processes pid).claim = .record := by
    obtain ⟨living, held⟩ := holds_iff.mp holding
    exact ⟨living, claim_of_held (guarded.keeps pid living).sound held⟩
  have claimed {pid : Pid} (holding : reached.holds pid = true) : (reached.processes pid).claim ≠ .none := by
    rw [(record holding).2]
    decide
  refine ⟨?_, ?_, ?_, ?_⟩
  · intro pid other first second
    exact guarded.exclusive (record first).1 (record second).1 (claimed first) (claimed second)
  · intro pid holding
    have met := (guarded.keeps pid (record holding).1).met
    rw [(record holding).2] at met
    exact met
  · intro pid either different
    rcases either with holding | publishing
    · exact spared.file pid (record holding).1 different (claimed holding)
    · obtain ⟨living, rival⟩ := publishes_claims publishing
      exact spared.file pid living different rival
  · intro pid held socketPath holding found bound
    have living := (record holding).1
    have present := (guarded.keeps pid living).bound held socketPath found bound
    exact ⟨present, (spared.sockets pid held socketPath living found bound).trans present⟩

def exampleProject : Project := ⟨"0.41.0", "/project/.codegraph/daemon.sock", ["/project/.codegraph/daemon.sock"]⟩

/-- Process 9 died and left its record and its socket behind. -/
def abandonedFiles : Files where
  pidFile := .content (.json ⟨9, "0.41.0", "/project/.codegraph/daemon.sock", 1⟩)
  sockets := fun socketPath => if socketPath = "/project/.codegraph/daemon.sock" then some 9 else none
  writer := none

def proceeds (pid : Pid) (count : Nat) : List (Pid × Action) := List.replicate count (pid, .proceed .ok 2)

/-- A cleaner reads the stale record and judges its process dead. -/
def judgeAbandoned (pid : Pid) : List (Pid × Action) :=
  (pid, .call (.clearStaleDaemonLock none) 2) :: proceeds pid 2

/-- A starter acquires the lock, replaces the socket and binds it. -/
def startDaemon (pid : Pid) : List (Pid × Action) :=
  (pid, .call .tryAcquireDaemonLock 2) :: proceeds pid 7

/-- A cleaner and then a starter take over an abandoned rendezvous, and another cleaner finds it live. -/
theorem restarted_daemon_keeps_rendezvous : ∃ reached next,
      run exampleProject (judgeAbandoned 2 ++ proceeds 2 1 ++ startDaemon 4 ++ judgeAbandoned 3)
        (initial abandonedFiles fun pid => decide (pid ≠ 9)) = some reached ∧
      step exampleProject 3 (.call .clearStaleDaemonSocket 3) reached = some next ∧
      reached.holds 4 = true ∧ next.files.pidFile = reached.files.pidFile ∧
      next.files.sockets "/project/.codegraph/daemon.sock" = some 4 := by
  have kept := live_holder_keeps_rendezvous exampleProject abandonedFiles (fun pid => decide (pid ≠ 9))
    (judgeAbandoned 2 ++ proceeds 2 1 ++ startDaemon 4 ++ judgeAbandoned 3) 3
    (.call .clearStaleDaemonSocket 3) _ _ rfl rfl rfl
  refine ⟨_, _, rfl, rfl, rfl, kept.2.2.1 4 (.inl rfl) (by decide), ?_⟩
  exact (kept.2.2.2 4 _ "/project/.codegraph/daemon.sock" rfl rfl rfl).2

/-- A starter acquires the pid file lock, and its next step asks for the writer lock. -/
def acquireDaemon (pid : Pid) : List (Pid × Action) :=
  (pid, .call .tryAcquireDaemonLock 2) :: proceeds pid 3

/-- Two cleaners judge one stale record, a starter binds after the first remove, and the second remove takes the
starter's live record away: a second starter then holds the lock too, and when the writer lock is taken, its cleanup
unlinks the socket that the first one has bound. -/
theorem late_remove_breaks_rendezvous : ∃ acquired cleaned,
      run exampleProject
        (judgeAbandoned 3 ++ judgeAbandoned 2 ++ proceeds 2 1 ++ startDaemon 4 ++ proceeds 3 1 ++ acquireDaemon 5)
        (initial abandonedFiles fun pid => decide (pid ≠ 9)) = some acquired ∧
      acquired.holds 4 = true ∧ acquired.holds 5 = true ∧ acquired.files.pidFile.owner = some 5 ∧
      run exampleProject (proceeds 5 3) acquired = some cleaned ∧ cleaned.holds 4 = true ∧
      (cleaned.processes 4).held.bind Held.bound = some "/project/.codegraph/daemon.sock" ∧
      cleaned.files.writer = some 4 ∧ cleaned.files.sockets "/project/.codegraph/daemon.sock" = none := by
  exact ⟨_, _, rfl, rfl, rfl, rfl, rfl, rfl, rfl, rfl, rfl⟩

end Codegraph.Daemon
