import Codegraph.Watch.Pending

/- This file shows that one done attempt settles the watcher, and that five errors in a row end it. -/

namespace Codegraph.Watch
open Interruptible

/-- A settled loop has nothing left to do, and no recovery is under way. -/
structure Settled (state : LoopState) : Prop where
  pending : state.pending = []
  deadline : state.deadline = none
  errors : state.consecutiveSyncErrors = 0
  recovering : state.degraded.recovering = false
  paths : ∀ path, outstanding path state.journal = false
  owing : fullSyncOutstanding state.journal = false

variable {config : WatchConfig} {view : TickView} {state reached : LoopState}

/-- An armed loop holds its outstanding changes, so an empty one has none. -/
theorem Armed.settled (armed : Armed state) (pending : state.pending = []) (owed : state.fullSyncPending = false)
    (deadline : state.deadline = none) (errors : state.consecutiveSyncErrors = 0) : Settled state := by
  refine ⟨pending, deadline, errors, ?_, ?_, ?_⟩
  · rw [← Bool.not_eq_true]
    intro paused
    have due := (armed.recovering paused).2
    rw [deadline] at due
    cases due
  · intro path
    rw [← Bool.not_eq_true]
    intro open_
    have held := armed.paths path open_
    rw [pending] at held
    cases held
  · rw [← Bool.not_eq_true]
    intro open_
    have full := armed.owing open_
    rw [owed] at full
    cases full

/-- A done attempt settles the loop. -/
theorem attemptSync_settles (armed : Armed state) (done : (state.attempt config view).isDone = true) :
    ∃ settled, Program.exec (attemptSync config view) state = (.ok (), settled) ∧ Settled settled := by
  have kept : Outcome (fun _ => Armed) (fun _ _ => True) (Program.exec (attemptSync config view) state) :=
    attemptSync_arms state armed
  cases attempted : state.attempt config view with
  | done controlPaths =>
    simp only [attemptSync, settleAttempt, attempted, reportAttempt, finishAttempt, notify, classifyPersistentFailure,
      applyDecision, exec_bind, exec_get, exec_modify, exec_pure, outcome_ok] at kept ⊢
    exact ⟨_, rfl, kept.settled rfl rfl rfl rfl⟩
  | degraded reason => rw [attempted] at done; cases done
  | error reason => rw [attempted] at done; cases done

section Errors

variable {α : Type} {count : Nat}

/-- The program leaves the error counter alone and does not end the loop for persistent failures. -/
abbrev KeepsErrors (count : Nat) (program : Loop α) : Prop :=
  Establishes (fun state => state.consecutiveSyncErrors = count) program
    (fun _ reached => reached.consecutiveSyncErrors = count) fun ended _ => ended ≠ .syncDisabled

theorem modify_keepsErrors {update : LoopState → LoopState}
    (same : ∀ state, (update state).consecutiveSyncErrors = state.consecutiveSyncErrors := by intro state; rfl) :
    KeepsErrors count (modify update : Loop Unit) :=
  .modify _ fun state counted => (same state).trans counted

theorem acceptAll_keepsErrors {now : Nat} (paths : List String) : KeepsErrors count (acceptAll now paths) := by
  induction paths with
  | nil => exact .skip _
  | cons path rest ih => exact (modify_keepsErrors).bind fun _ => ih

theorem noteWatchError_keepsErrors (error : NotifyError) (state : LoopState) :
    (noteWatchError error state).consecutiveSyncErrors = state.consecutiveSyncErrors := by
  unfold noteWatchError
  split
  · split <;> rfl
  · rfl

theorem registerWatches_keepsErrors (errors : List NotifyError) : KeepsErrors count (registerWatches errors) := by
  induction errors with
  | nil => exact .skip _
  | cons error rest ih =>
    have handled : KeepsErrors count (handleWatchError error) :=
      (modify_keepsErrors (noteWatchError_keepsErrors error)).bind fun _ => .skip _
    exact handled.bind fun _ => .ite (fun _ => .throw _ fun _ _ => by decide) fun _ => ih

theorem beginLostEventRecovery_keepsErrors {now delay : Nat} {cause : String} :
    KeepsErrors count (beginLostEventRecovery now delay cause) :=
  .reads fun _ => .ite (fun _ => .skip _) fun _ => modify_keepsErrors

variable {event : EventView}

theorem handleControlChanges_keepsErrors {normalized : List NormalizedPath} {changes : ControlChanges} :
    KeepsErrors count (handleControlChanges event normalized changes) := by
  have reported (reason : Option String) : KeepsErrors count (reportReload reason) := by
    cases reason with
    | none => exact .skip _
    | some text => exact modify_keepsErrors
  have applied (next : RuntimeWatchScope) : KeepsErrors count (applyReload event normalized next) :=
    (registerWatches_keepsErrors _).bind fun _ => (modify_keepsErrors).bind fun _ =>
      (modify_keepsErrors).bind fun _ => acceptAll_keepsErrors _
  refine .reads fun _ => .ite (fun _ => (reported _).bind fun _ => ?_) fun _ => .skip _
  exact .ite (fun _ => (applied _).bind fun _ => .skip _) fun _ => .skip _

/-- Handling a path keeps the count of errors. -/
theorem handlePath_keepsErrors {removal : RemovalHint} {normalized : NormalizedPath} :
    KeepsErrors count (handlePath event removal normalized) := by
  have removed : KeepsErrors count (handleRemovedDirectory event normalized.relative) :=
    .reads fun _ => .ite
      (fun _ => (modify_keepsErrors).bind fun _ => modify_keepsErrors)
      fun _ => .ite (fun _ => acceptAll_keepsErrors _) fun _ => .skip _
  have marker : KeepsErrors count (handleMarkerDirectory event normalized.path normalized.relative) :=
    .reads fun _ => .ite
      (fun _ => (modify_keepsErrors).bind fun _ => acceptAll_keepsErrors _) fun _ => .skip _
  have directory : KeepsErrors count (handleNewDirectory event normalized.path normalized.relative) :=
    .reads fun _ => .ite
      (fun _ => (modify_keepsErrors).bind fun _ => .ite
        (fun _ => (modify_keepsErrors).bind fun _ => .skip _) fun _ => .skip _)
      fun _ => .skip _
  have file : KeepsErrors count (handleFile event normalized.path normalized.relative) :=
    .reads fun _ => .ite (fun _ => acceptAll_keepsErrors _) fun _ => .skip _
  have present : KeepsErrors count (handlePresentPath event normalized.path normalized.relative) :=
    marker.bind fun _ => directory.bind fun _ => file.bind fun _ => .skip _
  refine .reads fun _ => .ite (fun _ => .skip _) fun _ => ?_
  refine (Establishes.ite (fun _ => modify_keepsErrors) fun _ => Establishes.skip _).bind fun _ => ?_
  refine (modify_keepsErrors).bind fun _ => ?_
  exact .ite (fun _ => removed.bind fun _ => .skip _)
    fun _ => present.bind fun _ => .skip _

theorem handlePaths_keepsErrors {removal : RemovalHint} (paths : List NormalizedPath) :
    KeepsErrors count (handlePaths event removal paths) := by
  induction paths with
  | nil => exact .skip _
  | cons path rest ih => exact handlePath_keepsErrors.bind fun _ => ih.bind fun _ => .skip _

/-- Handling an event keeps the count of errors. -/
theorem handleEvent_keepsErrors {batch : WatchEventBatch} : KeepsErrors count (handleEvent batch event) := by
  have handled : KeepsErrors count (handleBatch batch event) :=
    .reads fun _ => handleControlChanges_keepsErrors.bind fun _ =>
      (handlePaths_keepsErrors _).bind fun _ => .skip _
  have relinked (changed : Bool) : KeepsErrors count (handleTopology event changed) :=
    .reads fun _ => .ite
      (fun _ => (registerWatches_keepsErrors _).bind fun _ => (modify_keepsErrors).bind fun _ =>
        modify_keepsErrors)
      fun _ => .skip _
  have rescanned : KeepsErrors count (handleRescan event batch.rescan) :=
    .reads fun _ => .ite
      (fun _ => (modify_keepsErrors).bind fun _ => beginLostEventRecovery_keepsErrors)
      fun _ => .skip _
  have rearmed : KeepsErrors count (rearmDebounce event) :=
    .reads fun _ => .ite (fun _ => modify_keepsErrors) fun _ => .skip _
  exact handled.bind fun changed => (relinked changed).bind fun _ => rescanned.bind fun _ => rearmed

theorem sentinelTick_keepsErrors : KeepsErrors count (sentinelTick config view) := by
  refine (modify_keepsErrors).bind fun _ => ?_
  refine .reads fun _ => .ite (fun _ => .skip _) fun _ => ?_
  rcases view.drift with text | (_ | detail)
  · exact (Establishes.ite (fun _ => modify_keepsErrors) fun _ => Establishes.skip _).bind fun _ =>
      modify_keepsErrors
  · exact .skip _
  · have rewatched : KeepsErrors count (rewatchRoot config.projectRoot view.rewatchFailure) := by
      cases view.rewatchFailure with
      | none => exact .skip _
      | some error => exact modify_keepsErrors
    exact rewatched.bind fun _ => (modify_keepsErrors).bind fun _ => beginLostEventRecovery_keepsErrors

end Errors

section Attempts

def SyncAttempt.isError : SyncAttempt → Bool
  | .error _ => true
  | _ => false

/-- The errors since the last done attempt. An attempt that contention put off is not one of them. -/
def errorsInARow (attempts : List SyncAttempt) : Nat :=
  (attempts.reverse.takeWhile fun attempt => !attempt.isDone).countP SyncAttempt.isError

def attemptsOn (config : WatchConfig) (message : LoopMessage) (state : LoopState) : List SyncAttempt :=
  match message with
  | .timeout view => if state.deadline.isSome then [state.attempt config view] else []
  | _ => []

/-- The attempts of a run, the oldest first. -/
def attemptsOf (config : WatchConfig) : List LoopMessage → LoopState → List SyncAttempt
  | [], _ => []
  | message :: rest, state =>
    attemptsOn config message state ++
      match Program.exec (step config message) state with
      | (.ok (), reached) => attemptsOf config rest reached
      | (.error _, _) => []

theorem errorsInARow_snoc (attempts : List SyncAttempt) (attempt : SyncAttempt) : errorsInARow (attempts ++ [attempt]) =
      if attempt.isDone then 0 else errorsInARow attempts + if attempt.isError then 1 else 0 := by
  rw [errorsInARow, List.reverse_append, List.reverse_singleton, List.singleton_append, List.takeWhile_cons]
  cases attempt.isDone with
  | true => rfl
  | false => exact List.countP_cons

/-- While the loop runs, its counter counts the errors in a row. It ends for persistent failures at the limit. -/
structure Counted (attempts : List SyncAttempt) (state : LoopState) : Prop where
  errors : state.consecutiveSyncErrors = errorsInARow attempts
  below : errorsInARow attempts < maxConsecutiveSyncErrors

def EndsAtLimit (attempts : List SyncAttempt) (ended : LoopEnd) : Prop :=
  (ended = .syncDisabled ↔ errorsInARow attempts = maxConsecutiveSyncErrors) ∧
    errorsInARow attempts ≤ maxConsecutiveSyncErrors

variable {attempts : List SyncAttempt}

/-- A program that leaves the counter alone makes no attempt. -/
theorem Counted.still {program : Loop Unit} (counted : Counted attempts state)
    (kept : ∀ {count : Nat}, KeepsErrors count program) :
    Outcome (fun _ => Counted attempts) (fun ended _ => EndsAtLimit attempts ended) (Program.exec program state) := by
  have moved := kept state counted.errors
  rcases ended : Program.exec program state with ⟨failed | value, reached⟩ <;> rw [ended] at moved
  · exact ⟨⟨fun disabled => absurd disabled moved, fun limit => absurd limit counted.below.ne⟩, counted.below.le⟩
  · exact ⟨moved, counted.below⟩

theorem pauseForContention_keepsErrors {count : Nat} {batch : List (String × PendingInfo)} {reason : String} :
    KeepsErrors count (pauseForContention config view batch reason) :=
  .reads fun _ =>
    (Establishes.ite (fun _ => modify_keepsErrors) fun _ => Establishes.skip _).bind fun _ => modify_keepsErrors

/-- An attempt is counted, or it ends the loop at the limit. -/
theorem attemptSync_counts (counted : Counted attempts state) :
    Outcome (fun _ => Counted (attempts ++ [state.attempt config view]))
      (fun ended _ => EndsAtLimit (attempts ++ [state.attempt config view]) ended)
      (Program.exec (attemptSync config view) state) := by
  have snoc := errorsInARow_snoc attempts (state.attempt config view)
  have below := counted.below
  simp only [attemptSync, settleAttempt, exec_bind, exec_get, exec_modify]
  cases attempted : state.attempt config view with
  | done controlPaths =>
    rw [attempted] at snoc
    simp only [reportAttempt, finishAttempt, notify, classifyPersistentFailure, applyDecision, exec_bind, exec_modify,
      exec_pure, outcome_ok]
    exact ⟨snoc.symm, snoc.trans_lt (Nat.zero_lt_succ _)⟩
  | degraded reason =>
    rw [attempted] at snoc
    simp only [reportAttempt, classifyPersistentFailure, applyDecision, exec_pure]
    exact Counted.still ⟨counted.errors.trans snoc.symm, snoc.trans_lt below⟩ pauseForContention_keepsErrors
  | error reason =>
    rw [attempted] at snoc
    have next : errorsInARow (attempts ++ [.error reason]) = state.consecutiveSyncErrors + 1 := by
      rw [snoc, counted.errors]
      rfl
    have errors := counted.errors
    simp only [reportAttempt, restoreBatch, notify, classifyPersistentFailure, exec_bind, exec_modify]
    split
    next limit =>
      change maxConsecutiveSyncErrors ≤ state.consecutiveSyncErrors + 1 at limit
      simp only [applyDecision, disableSync, exec_bind, exec_modify, exec_throw, outcome_error]
      exact ⟨⟨fun _ => by omega, fun _ => rfl⟩, by omega⟩
    next room =>
      change ¬ maxConsecutiveSyncErrors ≤ state.consecutiveSyncErrors + 1 at room
      simp only [applyDecision, exec_pure, outcome_ok]
      exact ⟨next.symm, by omega⟩

/-- A step counts its own attempts. -/
theorem step_counts (message : LoopMessage) (counted : Counted attempts state) :
    Outcome (fun _ => Counted (attempts ++ attemptsOn config message state))
      (fun ended _ => EndsAtLimit (attempts ++ attemptsOn config message state) ended)
      (Program.exec (step config message) state) := by
  have same : Counted (attempts ++ []) state := (List.append_nil attempts).symm ▸ counted
  cases message with
  | event batch event => exact same.still handleEvent_keepsErrors
  | watchError error => exact same.still (registerWatches_keepsErrors [error])
  | snapshot => exact same.still (.skip _)
  | stop => exact same.still (.throw _ fun _ _ => by decide)
  | timeout view =>
    simp only [step, attemptsOn, exec_bind, exec_get]
    split
    · exact attemptSync_counts counted
    · split
      · exact same.still sentinelTick_keepsErrors
      · exact same.still (.skip _)

/-- The loop counts the attempts of its messages and ends at the limit. -/
theorem eventLoop_counts (messages : List LoopMessage) (counted : Counted attempts state) :
    match eventLoop config messages state with
    | (none, reached) => Counted (attempts ++ attemptsOf config messages state) reached
    | (some ended, _) => EndsAtLimit (attempts ++ attemptsOf config messages state) ended := by
  induction messages generalizing attempts state with
  | nil =>
    rw [attemptsOf, List.append_nil]
    exact counted
  | cons message rest ih =>
    have moved := @step_counts config state attempts message counted
    rw [eventLoop, attemptsOf]
    rcases ended : Program.exec (step config message) state with ⟨failed | value, reached⟩ <;> rw [ended] at moved
    · rw [List.append_nil]
      exact moved
    · rw [← List.append_assoc]
      exact ih moved

end Attempts

section Runs

variable {controlFiles : ControlFiles} {scope : RuntimeWatchScope} {knownDirs : List String} {links : LinkState}
  {controlPaths : RecordedInputs} {sentinelDue : Option Nat} {registrations : List Registration}
  {messages : List LoopMessage} {started : LoopState}

theorem eventLoop_timeout (view : TickView) (running : eventLoop config messages state = (none, reached)) :
    eventLoop config (messages ++ [.timeout view]) state = eventLoop config [.timeout view] reached := by
  induction messages generalizing state with
  | nil => cases running; rfl
  | cons message rest ih =>
    rw [List.cons_append, eventLoop]
    rw [eventLoop] at running
    rcases ended : Program.exec (step config message) state with ⟨failed | value, middle⟩ <;> rw [ended] at running
    · cases running
    · exact ih running

/-- Whatever a running loop has been through, one timeout whose attempt is done leaves it settled. -/
theorem done_attempt_settles (begun : start config.projectRoot
      (initialLoop controlFiles scope knownDirs links controlPaths sentinelDue) registrations = .ok started)
    (running : eventLoop config messages started = (none, reached)) (due : reached.deadline.isSome = true)
    (done : (reached.attempt config view).isDone = true) :
    ∃ settled, eventLoop config (messages ++ [.timeout view]) started = (none, settled) ∧ Settled settled := by
  have fresh : Fresh started := start_fresh ⟨rfl, rfl, rfl, rfl⟩ begun
  have armed := eventLoop_arms messages fresh.armed running
  obtain ⟨settled, ended, rest⟩ := attemptSync_settles armed done
  refine ⟨settled, ?_, rest⟩
  rw [eventLoop_timeout view running, eventLoop, step, exec_bind, exec_get]
  simp only [due, if_true, ended, eventLoop]

/-- A saved file is settled by the first sync that is done. -/
theorem saved_file_settles :
    ∃ settled, eventLoop openConfig ([.event ⟨["src/lib.rs"], .none, false⟩ (plainView 1000)] ++
        [.timeout ⟨2000, 2100, .ok none, none, fun _ _ => .ok none, fun _ => .ok none⟩]) openLoop = (none, settled) ∧
      Settled settled := by
  refine @done_attempt_settles openConfig _ _ _ _ _ _ _ _ [] _ openLoop rfl rfl rfl ?_
  rw [LoopState.attempt, runWithBackoff]
  rfl

theorem registerAll_errors {projectRoot : String}
    (registered : registerAll projectRoot state registrations = .ok reached) :
    reached.consecutiveSyncErrors = state.consecutiveSyncErrors := by
  induction registrations generalizing state with
  | nil => cases registered; rfl
  | cons registration rest ih =>
    rw [registerAll, List.foldlM_cons] at registered
    cases first : register projectRoot state registration with
    | error error => rw [first] at registered; cases registered
    | ok middle =>
      rw [first] at registered
      refine (ih registered).trans ?_
      unfold register at first
      split at first
      · cases first; rfl
      · split at first
        · dsimp only at first
          split at first <;> cases first <;> rfl
        · cases first; rfl
        · split at first <;> cases first; rfl

theorem start_counted (begun : start config.projectRoot
    (initialLoop controlFiles scope knownDirs links controlPaths sentinelDue) registrations = .ok started) :
    Counted [] started := by
  obtain ⟨middle, registered, rfl⟩ := start_registered begun
  refine ⟨.trans ?_ (registerAll_errors registered), by decide⟩
  unfold warnPartial
  split <;> rfl

/-- The loop ends for persistent failures exactly when the fifth error in a row comes, and never sees a sixth. A done
attempt starts the count again, and contention neither counts nor starts it again. -/
theorem five_errors_end_the_loop (begun : start config.projectRoot
      (initialLoop controlFiles scope knownDirs links controlPaths sentinelDue) registrations = .ok started) :
    ((eventLoop config messages started).1 = some .syncDisabled ↔
      errorsInARow (attemptsOf config messages started) = 5) ∧
      errorsInARow (attemptsOf config messages started) ≤ 5 ∧
      ((eventLoop config messages started).1 = none →
        (eventLoop config messages started).2.consecutiveSyncErrors =
          errorsInARow (attemptsOf config messages started)) := by
  have counts := @eventLoop_counts config _ _ messages (start_counted begun)
  rw [List.nil_append] at counts
  rcases ended : eventLoop config messages started with ⟨_ | ended, reached⟩ <;> simp only [ended] at counts
  · exact ⟨⟨nofun, fun limit => absurd limit counts.below.ne⟩, counts.below.le, fun _ => counts.errors⟩
  · refine ⟨?_, counts.2, nofun⟩
    rw [Option.some.injEq]
    exact counts.1

/-- An event on a file that stays unreadable, and six ticks after it. -/
def unreadableRun : List LoopMessage :=
  .event ⟨["src/lib.rs"], .none, false⟩ (plainView 1000) ::
    List.replicate 6 (.timeout ⟨2000, 2100, .ok none, none, fun _ _ => .error ⟨"unreadable file", false⟩,
      fun _ => .error ⟨"unreadable file", false⟩⟩)

/-- The fifth attempt on an unreadable file ends the loop, and the sixth tick finds none. -/
theorem unreadable_file_ends_the_loop : (eventLoop openConfig unreadableRun openLoop).1 = some .syncDisabled :=
  have five : errorsInARow (attemptsOf openConfig unreadableRun openLoop) = 5 := by decide +kernel
  (@five_errors_end_the_loop openConfig _ _ _ _ _ _ [] unreadableRun openLoop rfl).1.mpr five

end Runs

end Codegraph.Watch
