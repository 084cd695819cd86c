import Codegraph.Daemon.Lock

/- This file shows which residue of killed processes lets a later daemon start again. -/

namespace Codegraph.Daemon

/-- Besides the calls of a daemon, a process may rewrite the lock or clean a rendezvous up at any time. -/
inductive Entry where
  | call (function : Call)
  | rewriteLockSocketPath (socketPath : String)
  | cleanupOwnedRendezvous (socketPath : String)
  deriving DecidableEq

def Process.begin (process : Process) (now : Nat) : Entry → Process
  | .call function => process.enter now function
  | .rewriteLockSocketPath socketPath => { process with task := .rereadRecord socketPath }
  | .cleanupOwnedRendezvous socketPath => ⟨.corroborate socketPath false, none⟩

inductive Move where
  | enter (entry : Entry) (now : Nat)
  | act (action : Action)
  deriving DecidableEq

/-- A resting live process may enter any function. -/
def move (project : Project) (who : Pid) (moved : Move) (state : State) : Option State :=
  match moved with
  | .act action => step project who action state
  | .enter entry now =>
    if state.alive who = true ∧ (state.processes who).task = .idle then
      some { state with processes := Function.update state.processes who ((state.processes who).begin now entry) }
    else none

def moves (project : Project) : List (Pid × Move) → State → Option State
  | [], state => some state
  | (who, moved) :: rest, state => (move project who moved state).bind (moves project rest)

/-- A process leaves its placeholder behind when it is killed, or its rename fails for good, before the rename. -/
def leavesPlaceholder (who : Pid) (moved : Move) (state : State) : Bool :=
  decide (state.files.pidFile = .placeholder who) &&
    match moved, (state.processes who).task with
    | .act .die, _ => true
    | .act (.proceed .failed _), .publishRecord _ _ _ => true
    | .act (.proceed .refused _), .publishRecord _ _ [] => true
    | _, _ => false

/-- Every placeholder of the run is replaced by its creator's record or removed by somebody. -/
def keepsNoPlaceholder (project : Project) : List (Pid × Move) → State → Bool
  | [], _ => true
  | (who, moved) :: rest, state =>
    !leavesPlaceholder who moved state &&
      (match move project who moved state with
      | some next => keepsNoPlaceholder project rest next
      | none => true)

/-- The tasks between a placeholder and the rename over it. -/
def Task.publishing : Task → Bool
  | .checkPlaceholder _ _ _ => true
  | .publishRecord _ _ _ => true
  | _ => false

section Perform

variable {project : Project} {who : Pid} {answer : Answer} {now : Nat} {process : Process} {files : Files}
  {alive : Pid → Bool} {actors : Pid → Prop} {performed : Process × Files}

/-- A task that carries a record carries one of the acting processes. -/
def Task.Names (actors : Pid → Prop) : Task → Prop
  | .recheckRecord _ _ info _ => actors info.pid
  | .rewriteRecord _ _ info _ => actors info.pid
  | _ => True

/-- A record in the pid file names one of the acting processes. -/
def PidFile.Names (actors : Pid → Prop) (file : PidFile) : Prop :=
  ∀ raw info, file = .content raw → decodeLockInfo raw = some info → actors info.pid

/-- What one step makes of the pid file and of its own task. -/
structure Leaves (actors : Pid → Prop) (who : Pid) (process : Process) (files : Files)
    (performed : Process × Files) : Prop where
  names : performed.2.pidFile.Names actors
  carries : performed.1.task.Names actors
  placed : ∀ creator, performed.2.pidFile = .placeholder creator →
    files.pidFile = .placeholder creator ∨ (creator = who ∧ performed.1.task.publishing = true)

/-- A step that leaves the pid file alone carries nothing new. -/
theorem Leaves.same (names : files.pidFile.Names actors)
    (file : performed.2.pidFile = files.pidFile) (carries : performed.1.task.Names actors) :
    Leaves actors who process files performed :=
  ⟨file ▸ names, carries, fun _ found => .inl (file ▸ found)⟩

theorem Leaves.removed (missing : performed.2.pidFile = .missing)
    (carries : performed.1.task.Names actors) : Leaves actors who process files performed := by
  refine ⟨?_, carries, ?_⟩
  · intro raw info found
    rw [missing] at found
    cases found
  · intro creator found
    rw [missing] at found
    cases found

theorem Leaves.written {record : DaemonLockInfo}
    (file : performed.2.pidFile = .content (encodeLockInfo record)) (named : actors record.pid)
    (carries : performed.1.task.Names actors) : Leaves actors who process files performed := by
  refine ⟨?_, carries, ?_⟩
  · intro raw info found decoded
    rw [file] at found
    cases found
    cases decoded
    exact named
  · intro creator found
    rw [file] at found
    cases found

theorem tryCandidates_names (candidates : List String) : (Task.tryCandidates candidates).Names actors := by
  cases candidates <;> trivial

theorem afterClear_names (heal : Option String) : (Task.afterClear now heal).Names actors := by
  cases heal <;> trivial

theorem beginCleanup_names : process.beginCleanup.task.Names actors := by
  unfold Process.beginCleanup
  cases process.held <;> trivial

@[simp] theorem unlink_pidFile (socketPath : String) : (files.unlink answer socketPath).pidFile = files.pidFile := by
  unfold Files.unlink
  split <;> rfl

theorem removePidFile_leaves {removed : Task} (names : files.pidFile.Names actors) (carries : removed.Names actors) :
    Leaves actors who process files (removePidFile answer process files removed) := by
  unfold removePidFile
  split
  · exact .same names rfl trivial
  · exact .removed rfl carries

theorem corroborate_leaves {named retry : Task} {again : Bool} (names : files.pidFile.Names actors)
    (next : named.Names actors) (retries : retry.Names actors) :
    Leaves actors who process files (corroborate who answer process files named retry again) := by
  unfold corroborate
  split
  · exact .same names rfl retries
  · split
    · exact .same names rfl next
    · exact .same names rfl trivial

theorem rereadRecord_leaves {socketPath : String} (names : files.pidFile.Names actors) :
    Leaves actors who process files (rereadRecord answer process files socketPath) := by
  unfold rereadRecord readPidfileOnce
  by_cases failed : answer = .failed
  · simp only [if_pos failed]
    exact .same names rfl trivial
  · simp only [if_neg failed]
    cases file : files.pidFile with
    | missing => exact .same names rfl trivial
    | placeholder creator => exact .same names rfl trivial
    | content raw =>
      dsimp only
      cases decoded : decodeLockInfo raw with
      | none => exact .same names rfl trivial
      | some info => exact .same names rfl (names raw info file decoded)

/-- Every step keeps the names, and only a claim puts a placeholder down. -/
theorem perform_leaves (acting : actors who) (names : files.pidFile.Names actors)
    (carries : process.task.Names actors) :
    Leaves actors who process files (perform project who answer now process files alive) := by
  unfold perform
  cases task : process.task with
  | idle => exact .same names rfl carries
  | claimPlaceholder purpose startedAt =>
    dsimp only [claimPlaceholder]
    split
    · exact .same names rfl trivial
    · split
      · refine ⟨?_, trivial, ?_⟩
        · intro raw info found
          cases found
        · intro creator found
          cases found
          exact .inr ⟨rfl, rfl⟩
      · exact .same names rfl trivial
  | checkPlaceholder purpose startedAt delays =>
    dsimp only [checkPlaceholder]
    split <;> exact .same names rfl trivial
  | publishRecord purpose startedAt delays =>
    dsimp only [publishRecord]
    split
    · exact .written rfl acting (by cases purpose <;> trivial)
    · exact .same names rfl trivial
    · exact .same names rfl trivial
  | readExisting again =>
    dsimp only [readExisting]
    split <;> exact .same names rfl trivial
  | acquireWriterLock =>
    dsimp only [acquireWriterLock]
    split
    · split
      · exact .same names rfl beginCleanup_names
      · exact .same names rfl (tryCandidates_names _)
    · exact .same names rfl beginCleanup_names
    · exact .same names rfl trivial
  | probeCandidate socketPath rest =>
    dsimp only [probeCandidate]
    split <;> exact .same names rfl trivial
  | unlinkCandidate socketPath rest => exact .same names (unlink_pidFile _) trivial
  | bindCandidate socketPath rest =>
    dsimp only [bindCandidate]
    split
    · exact .same names rfl trivial
    · exact .same names rfl (tryCandidates_names _)
  | rereadRecord socketPath => exact rereadRecord_leaves names
  | recheckRecord socketPath raw info delays =>
    rw [task] at carries
    dsimp only [recheckRecord]
    split
    · exact .same names rfl carries
    · exact .same names rfl trivial
  | rewriteRecord socketPath raw info delays =>
    rw [task] at carries
    dsimp only [rewriteRecord]
    split
    · exact .written rfl carries trivial
    · exact .same names rfl carries
    · exact .same names rfl trivial
  | corroborate socketPath again => exact corroborate_leaves names trivial trivial
  | unlinkOwnSocket socketPath => exact .same names (unlink_pidFile _) trivial
  | corroborateRelease again => exact corroborate_leaves names trivial trivial
  | removeOwnRecord => exact removePidFile_leaves names trivial
  | readRecordedSocket again =>
    dsimp only [readRecordedSocket]
    split <;> exact .same names rfl trivial
  | readStale expectedDeadPid heal again =>
    dsimp only [readStale]
    split
    · exact .same names rfl trivial
    · exact .same names rfl (afterClear_names heal)
    · exact .same names rfl trivial
    · exact .same names rfl trivial
  | judgeStale expectedDeadPid heal raw =>
    dsimp only [judgeStale]
    split
    · split
      · exact .same names rfl trivial
      · split <;> exact .same names rfl trivial
    · exact .same names rfl trivial
  | removeStale heal raw => exact removePidFile_leaves names (afterClear_names heal)
  | unlinkStaleSocket socketPath => exact .same names (unlink_pidFile _) trivial

/-- A publishing process either replaces its placeholder or goes on publishing, unless it leaves it behind. -/
theorem publishing_goes_on {state : State} {next : Process × Files}
    (own : state.files.pidFile = .placeholder who) (publishing : (state.processes who).task.publishing = true)
    (kept : leavesPlaceholder who (.act (.proceed answer now)) state = false)
    (performed : perform project who answer now (state.processes who) state.files alive = next)
    (still : next.2.pidFile = .placeholder who) : next.1.task.publishing = true := by
  subst performed
  unfold perform at still ⊢
  cases task : (state.processes who).task <;> simp only [task] at publishing still ⊢ <;>
    first | (cases publishing; done) | skip
  case checkPlaceholder purpose startedAt delays =>
    simp only [checkPlaceholder, own, PidFile.text, or_true, if_true]
    rfl
  case publishRecord purpose startedAt delays =>
    simp only [leavesPlaceholder, own, task, decide_true, Bool.true_and] at kept
    cases answer with
    | ok => cases still
    | refused =>
      cases delays with
      | nil => cases kept
      | cons delay later => rfl
    | failed => cases kept

end Perform

section Runs

variable {project : Project} {who : Pid} {moved : Move} {state next : State} {actors : Pid → Prop}

/-- Records name acting processes, the others rest, and a placeholder belongs to a live process that publishes. -/
structure Residual (actors : Pid → Prop) (state : State) : Prop where
  names : state.files.pidFile.Names actors
  carries : ∀ pid, (state.processes pid).task.Names actors
  resting : ∀ pid, ¬ actors pid → state.processes pid = Process.resting
  placed : ∀ creator, state.files.pidFile = .placeholder creator →
    state.alive creator = true ∧ (state.processes creator).task.publishing = true

theorem begin_names {process : Process} {now : Nat} {entry : Entry} : (process.begin now entry).task.Names actors := by
  cases entry with
  | call function =>
    cases function with
    | cleanupOwnedRendezvous => exact beginCleanup_names
    | _ => trivial
  | rewriteLockSocketPath => trivial
  | cleanupOwnedRendezvous => trivial

/-- A process that steps is one of the actors, and the others stay as they are. -/
theorem Residual.update (residual : Residual actors state) (acting : actors who) {process : Process} {files : Files}
    (names : files.pidFile.Names actors) (carries : process.task.Names actors)
    (placed : ∀ creator, files.pidFile = .placeholder creator →
      (creator ≠ who ∧ state.files.pidFile = .placeholder creator) ∨
        (creator = who ∧ state.alive who = true ∧ process.task.publishing = true)) :
    Residual actors { state with processes := Function.update state.processes who process, files := files } := by
  refine ⟨names, ?_, ?_, ?_⟩
  · intro pid
    by_cases same : pid = who
    · subst same
      simpa using carries
    · simpa [same] using residual.carries pid
  · intro pid idle
    have other : pid ≠ who := fun same => idle (same ▸ acting)
    simpa [other] using residual.resting pid idle
  · intro creator found
    rcases placed creator found with ⟨other, before⟩ | ⟨rfl, alive, publishing⟩
    · simpa [other] using residual.placed creator before
    · simpa using ⟨alive, publishing⟩

/-- A move that leaves no placeholder behind keeps the residue. -/
theorem move_residual (residual : Residual actors state) (acting : actors who)
    (kept : leavesPlaceholder who moved state = false) (went : move project who moved state = some next) :
    Residual actors next := by
  cases moved with
  | enter entry now =>
    simp only [move] at went
    split at went
    · rename_i rests
      cases went
      refine residual.update acting residual.names begin_names ?_
      intro creator found
      refine .inl ⟨?_, found⟩
      rintro rfl
      have publishing := (residual.placed _ found).2
      rw [rests.2] at publishing
      cases publishing
    · cases went
  | act action =>
    simp only [move, step] at went
    split at went
    · cases went
    rename_i living
    have alive : state.alive who = true := by simpa using living
    cases action with
    | die =>
      cases went
      refine ⟨residual.names, residual.carries, residual.resting, ?_⟩
      intro creator found
      have other : creator ≠ who := by
        rintro rfl
        simp [leavesPlaceholder, show state.files.pidFile = .placeholder creator from found] at kept
      simpa [other] using residual.placed creator found
    | dropWriterLock =>
      dsimp only at went
      split at went
      · cases went
        exact ⟨residual.names, residual.carries, residual.resting, residual.placed⟩
      · cases went
    | call function now =>
      dsimp only at went
      split at went
      · rename_i rests
        cases went
        have carries : ((state.processes who).enter now function).task.Names actors :=
          @begin_names actors (state.processes who) now (.call function)
        refine residual.update acting residual.names carries ?_
        intro creator found
        refine .inl ⟨?_, found⟩
        rintro rfl
        have publishing := (residual.placed _ found).2
        rw [rests] at publishing
        cases publishing
      · cases went
    | proceed answer now =>
      cases went
      have leaves := @perform_leaves project who answer now (state.processes who) state.files state.alive actors
        acting residual.names (residual.carries who)
      refine residual.update acting leaves.names leaves.carries ?_
      intro creator found
      rcases leaves.placed creator found with before | ⟨rfl, publishing⟩
      · by_cases same : creator = who
        · subst same
          exact .inr ⟨rfl, alive,
            publishing_goes_on before (residual.placed _ before).2 kept rfl found⟩
        · exact .inl ⟨same, before⟩
      · exact .inr ⟨rfl, alive, publishing⟩

/-- A schedule of the acting processes keeps the files residual. -/
theorem moves_residual {schedule : List (Pid × Move)} {reached : State} (residual : Residual actors state)
    (acting : ∀ entry ∈ schedule, actors entry.1) (kept : keepsNoPlaceholder project schedule state = true)
    (went : moves project schedule state = some reached) : Residual actors reached := by
  induction schedule generalizing state with
  | nil =>
    cases went
    exact residual
  | cons entry rest ih =>
    obtain ⟨who, moved⟩ := entry
    simp only [keepsNoPlaceholder, Bool.and_eq_true, Bool.not_eq_true'] at kept
    simp only [moves] at went
    cases stepped : move project who moved state with
    | none => simp [stepped] at went
    | some next =>
      rw [stepped] at went kept
      exact ih (move_residual residual (acting _ List.mem_cons_self) kept.1 stepped)
        (fun entry member => acting entry (List.mem_cons_of_mem _ member)) kept.2 went

end Runs

section Recovery

variable {project : Project} {who : Pid} {now : Nat} {files : Files} {alive : Pid → Bool} {state : State}

/-- A process takes its file steps alone, and none of them fails. -/
def solo (project : Project) (who : Pid) (now : Nat) (alive : Pid → Bool) : Nat → Process × Files → Process × Files
  | 0, reached => reached
  | count + 1, (process, files) => solo project who now alive count (perform project who .ok now process files alive)

theorem run_solo (count : Nat) (living : state.alive who = true) :
    run project (List.replicate count (who, .proceed .ok now)) state =
      some { state with
        processes := Function.update state.processes who
          (solo project who now state.alive count (state.processes who, state.files)).1
        files := (solo project who now state.alive count (state.processes who, state.files)).2 } := by
  induction count generalizing state with
  | zero => simp [run, solo]
  | succ count ih =>
    rw [List.replicate_succ, run, step, if_neg (by simp [living])]
    simp only [Option.bind_some]
    rw [ih (by exact living)]
    simp [solo]

theorem run_append (first second : List (Pid × Action)) (state : State) :
    run project (first ++ second) state = (run project first state).bind (run project second) := by
  induction first generalizing state with
  | nil => rfl
  | cons entry rest ih =>
    obtain ⟨who, action⟩ := entry
    simp only [List.cons_append, run, Option.bind_assoc]
    congr 1
    funext next
    exact ih next

/-- A file that a cleaner may clear: missing, undecodable, or the record of a dead process. -/
def PidFile.Clearable (alive : Pid → Bool) : PidFile → Prop
  | .missing => True
  | .placeholder _ => False
  | .content raw => ∀ info, decodeLockInfo raw = some info → alive info.pid = false

/-- Once its stale record is gone, a cleaner claims the lock, unlinks the socket, and releases the lock. -/
theorem heal_solo (socketPath : String) : solo project who now alive 6
      (⟨.claimPlaceholder (.heal socketPath) now, none⟩, { files with pidFile := .missing }) =
      (⟨.idle, none⟩, { (files.unlink .ok socketPath) with pidFile := .missing }) := by
  simp [solo, perform, claimPlaceholder, checkPlaceholder, publishRecord, Purpose.next, corroborate,
    readPidfileTolerant, readPidfileOnce, ReadOutcome.names, ReadOutcome.lockInfo, encodeLockInfo, decodeLockInfo,
    Project.lockInfo, removePidFile, Files.unlink, PidFile.text]

theorem solo_add (first second : Nat) (reached : Process × Files) :
    solo project who now alive (first + second) reached =
      solo project who now alive second (solo project who now alive first reached) := by
  induction first generalizing reached with
  | zero => rw [Nat.zero_add]; rfl
  | succ first ih =>
    rw [Nat.succ_add]
    exact ih _

theorem solo_idle (count : Nat) (held : Option Held) :
    solo project who now alive count (⟨.idle, held⟩, files) = (⟨.idle, held⟩, files) := by
  induction count with
  | zero => rfl
  | succ count ih => exact ih

/-- A cleaner that meets a clearable file ends with no pid file. -/
theorem clear_solo (clearable : files.pidFile.Clearable alive) :
    ∃ sockets, solo project who now alive 10 (⟨.readRecordedSocket false, none⟩, files) =
      (⟨.idle, none⟩, ⟨.missing, sockets, files.writer⟩) := by
  obtain ⟨file, sockets, writer⟩ := files
  cases file with
  | missing =>
    have read : solo project who now alive 2 (⟨.readRecordedSocket false, none⟩, ⟨.missing, sockets, writer⟩) =
        (⟨.claimPlaceholder (.heal project.daemonSocketPath) now, none⟩, ⟨.missing, sockets, writer⟩) := rfl
    have healed := @heal_solo project who now ⟨.missing, sockets, writer⟩ alive project.daemonSocketPath
    refine ⟨((⟨.missing, sockets, writer⟩ : Files).unlink .ok project.daemonSocketPath).sockets, ?_⟩
    rw [show 10 = 2 + (6 + 2) from rfl, solo_add, read, solo_add]
    rw [show (⟨.missing, sockets, writer⟩ : Files) =
      { (⟨.missing, sockets, writer⟩ : Files) with pidFile := .missing } from rfl,
      healed]
    exact solo_idle _ _
  | placeholder creator => exact clearable.elim
  | content raw =>
    have judged : perform project who .ok now
      ⟨.judgeStale none (some (project.recordedSocketPath (.content raw))) raw,
        none⟩ ⟨.content raw, sockets, writer⟩ alive =
          (⟨.removeStale (some (project.recordedSocketPath (.content raw))) raw, none⟩,
            ⟨.content raw, sockets, writer⟩) := by
      simp only [perform, judgeStale]
      cases decoded : decodeLockInfo raw with
      | none => rfl
      | some info => simp [clearable info decoded]
    have read : solo project who now alive 4 (⟨.readRecordedSocket false, none⟩, ⟨.content raw, sockets, writer⟩) =
        (⟨.claimPlaceholder (.heal (project.recordedSocketPath (.content raw))) now, none⟩,
          ⟨.missing, sockets, writer⟩) := by
      change solo project who now alive 1 (perform project who .ok now
        ⟨.judgeStale none (some (project.recordedSocketPath (.content raw))) raw, none⟩
          ⟨.content raw, sockets, writer⟩ alive) = _
      rw [judged]
      rfl
    refine ⟨((⟨.missing, sockets, writer⟩ : Files).unlink .ok (project.recordedSocketPath (.content raw))).sockets,
      ?_⟩
    rw [show 10 = 4 + 6 from rfl, solo_add, read]
    exact @heal_solo project who now ⟨.missing, sockets, writer⟩ alive _

/-- A starter that finds no pid file publishes its own record. -/
theorem acquire_solo (sockets : String → Option Pid) (writer : Option Pid) :
    solo project who now alive 3 (⟨.claimPlaceholder .start now, none⟩, ⟨.missing, sockets, writer⟩) =
      (⟨.acquireWriterLock, some ⟨project.lockInfo who now, none⟩⟩,
        ⟨.content (encodeLockInfo (project.lockInfo who now)), sockets, writer⟩) := by
  simp [solo, perform, claimPlaceholder, checkPlaceholder, publishRecord, Purpose.next, PidFile.text]

/-- A fresh process calls the function and takes its file steps alone. -/
def alone (who : Pid) (function : Call) (now count : Nat) : List (Pid × Action) :=
  (who, .call function now) :: List.replicate count (who, .proceed .ok now)

theorem run_alone (function : Call) (count : Nat) (living : state.alive who = true)
    (rests : state.processes who = Process.resting) : run project (alone who function now count) state =
      some { state with
        processes := Function.update state.processes who
          (solo project who now state.alive count (Process.resting.enter now function, state.files)).1
        files := (solo project who now state.alive count (Process.resting.enter now function, state.files)).2 } := by
  have idle : Process.resting.task = .idle := rfl
  rw [alone, run, step, if_neg (by simp [living])]
  simp only [rests, idle, if_true, Option.bind_some]
  rw [run_solo count (by exact living)]
  simp

/-- Once every process of the run is dead, what they left in the pid file is clearable. -/
theorem Residual.clearable {actors : Pid → Prop} (residual : Residual actors state)
    (dead : ∀ pid, actors pid → state.alive pid = false) : state.files.pidFile.Clearable state.alive := by
  cases file : state.files.pidFile with
  | missing => trivial
  | placeholder creator =>
    obtain ⟨living, publishing⟩ := residual.placed creator file
    have acts : actors creator := by
      by_contra idle
      rw [residual.resting creator idle] at publishing
      cases publishing
    rw [dead creator acts] at living
    cases living
  | content raw =>
    intro info decoded
    exact dead info.pid (residual.names raw info file decoded)

theorem initial_residual (actors : Pid → Prop) (running : Pid → Bool) (absent : files.pidFile = .missing) :
    Residual actors (initial files running) := by
  refine ⟨?_, fun _ => trivial, fun _ _ => rfl, ?_⟩
  · intro raw info found
    cases absent.symm.trans found
  · intro creator found
    cases absent.symm.trans found

/-- Two fresh processes recover the rendezvous: one clears the residue, and then the other starts a daemon. -/
def recovery (cleaner starter : Pid) (now later : Nat) : List (Pid × Action) :=
  alone cleaner .clearStaleDaemonSocket now 10 ++ alone starter .tryAcquireDaemonLock later 3

/-- Whatever a run that abandons no placeholder leaves behind, one cleaner clears it and the next starter acquires. -/
theorem dead_residue_recovers (project : Project) (files : Files) (running : Pid → Bool)
    (schedule : List (Pid × Move)) (reached : State) (cleaner starter : Pid) (now later : Nat)
    (absent : files.pidFile = .missing) (kept : keepsNoPlaceholder project schedule (initial files running) = true)
    (went : moves project schedule (initial files running) = some reached)
    (dead : ∀ entry ∈ schedule, reached.alive entry.1 = false)
    (cleans : reached.alive cleaner = true) (starts : reached.alive starter = true) :
    ∃ recovered, run project (recovery cleaner starter now later) reached = some recovered ∧
      recovered.processes starter = ⟨.acquireWriterLock, some ⟨project.lockInfo starter later, none⟩⟩ ∧
      recovered.files.pidFile = .content (encodeLockInfo (project.lockInfo starter later)) := by
  let actors : Pid → Prop := fun pid => ∃ entry ∈ schedule, entry.1 = pid
  have residual : Residual actors reached :=
    moves_residual (initial_residual actors running absent) (fun entry member => ⟨entry, member, rfl⟩) kept went
  have gone : ∀ pid, actors pid → reached.alive pid = false := by
    rintro pid ⟨entry, member, rfl⟩
    exact dead entry member
  have fresh : ∀ pid, reached.alive pid = true → reached.processes pid = Process.resting := by
    intro pid living
    apply residual.resting pid
    intro acts
    rw [gone pid acts] at living
    cases living
  obtain ⟨sockets, cleared⟩ := @clear_solo project cleaner now reached.files reached.alive (residual.clearable gone)
  have enters : Process.resting.enter now .clearStaleDaemonSocket = ⟨.readRecordedSocket false, none⟩ := rfl
  have acquires : Process.resting.enter later .tryAcquireDaemonLock = ⟨.claimPlaceholder .start later, none⟩ := rfl
  rw [recovery, run_append, run_alone _ _ cleans (fresh cleaner cleans), enters, cleared, Option.bind_some,
    run_alone _ _ (by exact starts), acquires]
  · dsimp only
    rw [acquire_solo]
    exact ⟨_, rfl, by simp, rfl⟩
  · by_cases same : starter = cleaner
    · subst same
      simp [Process.resting]
    · simpa [same] using fresh starter starts

/-- A daemon that is killed right after it published its record leaves residue that recovers. -/
theorem killed_daemon_recovers : ∃ reached recovered,
    moves ⟨"1", "socket", []⟩
      [(1, .enter (.call .tryAcquireDaemonLock) 0), (1, .act (.proceed .ok 0)), (1, .act (.proceed .ok 0)),
        (1, .act (.proceed .ok 0)), (1, .act .die)] (initial ⟨.missing, fun _ => none, none⟩ fun _ => true) =
          some reached ∧
      run ⟨"1", "socket", []⟩ (recovery 2 3 4 5) reached = some recovered ∧
      recovered.files.pidFile = .content (.json ⟨3, "1", "socket", 5⟩) := by
  obtain ⟨recovered, ran, -, file⟩ :=
    dead_residue_recovers ⟨"1", "socket", []⟩ ⟨.missing, fun _ => none, none⟩ (fun _ => true)
    [(1, .enter (.call .tryAcquireDaemonLock) 0), (1, .act (.proceed .ok 0)), (1, .act (.proceed .ok 0)),
      (1, .act (.proceed .ok 0)), (1, .act .die)] _ 2 3 4 5 rfl (by decide) rfl (by decide) (by decide) (by decide)
  exact ⟨_, recovered, rfl, ran, file⟩

/-- A daemon that is killed between its placeholder and the rename leaves an empty file that blocks every start. -/
theorem killed_publisher_blocks : ((moves ⟨"1", "socket", []⟩
      [(1, .enter (.call .tryAcquireDaemonLock) 0), (1, .act (.proceed .ok 0)), (1, .act .die)]
      (initial ⟨.missing, fun _ => none, none⟩ fun _ => true)).bind (run ⟨"1", "socket", []⟩ (recovery 2 3 4 5))).map
        (fun recovered => (recovered.files.pidFile, recovered.processes 2, recovered.processes 3)) =
      some (.placeholder 1, ⟨.idle, none⟩, ⟨.idle, none⟩) := by
  decide

end Recovery

end Codegraph.Daemon
