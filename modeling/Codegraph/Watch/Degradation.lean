import Codegraph.Watch.Pending

/- This file shows when a stopped watcher stays stopped and tells its host once. -/

namespace Codegraph.Watch

variable {path relative : String} {view : EventView} {normalized : List NormalizedPath} {config : WatchConfig}
  {batch : List (String × PendingInfo)} {message : LoopMessage}

open Interruptible

/-- The health of a watcher and how often it called its host about it. -/
structure Standing where
  degraded : DegradedState
  calls : Nat

def LoopState.standing (state : LoopState) : Standing :=
  ⟨state.degraded, state.notices.countP Notice.isDegraded⟩

def Standing.disabled (standing : Standing) : Bool := standing.degraded.health.isDisabled

/-- A disabled watcher made one call, and any other made none. -/
def Standing.Honest (standing : Standing) : Prop := standing.calls = if standing.disabled then 1 else 0

def degrades (errors : List NotifyError) : Bool :=
  errors.any fun error => decide (classifyNotifyError error = .degrade)

/-- The batch reloads the scope, so the watches are reconciled. -/
def LoopState.reconciles (batch : WatchEventBatch) (view : EventView) (state : LoopState) : Bool :=
  let found := normalizeAll view state.scope state.controlFiles batch.paths ControlChanges.none
  found.2.any && (reloadRuntimeScope state.scope found.2 view.reload).2.1

/-- The batch changes the links, so the link-reached watches are registered again. -/
def LoopState.relinks (batch : WatchEventBatch) (view : EventView) (state : LoopState) : Bool :=
  match Program.exec (handleBatch batch view) state with
  | (.ok changed, reached) => changed && reached.scope.enabled
  | (.error _, _) => false

/-- The batch reports dropped events to an enabled scope. -/
def LoopState.rescans (batch : WatchEventBatch) (view : EventView) (state : LoopState) : Bool :=
  match Program.exec (handleBatch batch view >>= handleTopology view) state with
  | (.ok _, reached) => batch.rescan && reached.scope.enabled
  | (.error _, _) => false

def SyncAttempt.isDegraded : SyncAttempt → Bool
  | .degraded _ => true
  | _ => false

/-- The message is one that marks a recovery: dropped events, drift, a burst or contention past its budget. -/
def LoopState.beginsRecovery (config : WatchConfig) (message : LoopMessage) (state : LoopState) : Bool :=
  match message with
  | .event batch view => state.rescans batch view
  | .timeout view =>
    if state.deadline.isSome then state.isBurst || (state.attempt config view).isDegraded
    else state.sentinelDue.isSome && state.scope.enabled &&
      (match view.drift with
      | .ok (some _) => true
      | _ => false)
  | _ => false

/-- The message hands the loop a watch error that degrades it. -/
def LoopState.meetsDegradingError (message : LoopMessage) (state : LoopState) : Bool :=
  match message with
  | .event batch view =>
    (state.reconciles batch view && degrades view.reconcileErrors) ||
      (state.relinks batch view && degrades view.relinkErrors)
  | .watchError error => degrades [error]
  | _ => false

/-- No recovery begins in a disabled watcher, and no watch error degrades a recovering one. -/
def LoopState.allows (config : WatchConfig) (message : LoopMessage) (state : LoopState) : Bool :=
  !(state.degraded.health.isDisabled && state.beginsRecovery config message) &&
    !(state.degraded.health.isRecovering && state.meetsDegradingError message)

/-- Every message that the loop handles is allowed in the state it meets. -/
def allowsAll (config : WatchConfig) : List LoopMessage → LoopState → Bool
  | [], _ => true
  | message :: rest, state =>
    state.allows config message &&
      (match Program.exec (step config message) state with
      | (.ok (), reached) => allowsAll config rest reached
      | (.error _, _) => true)

/-- What one message can do to the standing. -/
inductive Move (loses fails : Bool) (before : Standing) : Except LoopEnd Unit → Standing → Prop where
  | rest : Move loses fails before (.ok ()) before
  | stop : Move loses fails before (.error .stopped) before
  | recover {after : Standing} (paused : before.degraded.recovering = true) (running : after.disabled = false)
      (calls : after.calls = before.calls) : Move loses fails before (.ok ()) after
  | pause {after : Standing} (lost : loses = true) (running : after.disabled = false)
      (calls : after.calls = before.calls) : Move loses fails before (.ok ()) after
  | fail (failed : fails = true) (already : before.degraded.degraded = true) :
      Move loses fails before (.error .watchDegraded) before
  | degrade {after : Standing} (fresh : before.disabled = false) (stopped : after.disabled = true)
      (calls : after.calls = before.calls + 1) : Move loses fails before (.error .watchDegraded) after
  | disable {after : Standing} (open_ : before.disabled = false ∨ loses = true) (stopped : after.disabled = true)
      (calls : after.calls = before.calls + 1) : Move loses fails before (.error .syncDisabled) after
  | stay (stopped : before.disabled = true) : Move loses fails before (.error .syncDisabled) before

/-- A quiet program completes and keeps the standing. -/
def Quiet {α : Type} (program : Loop α) : Prop :=
  ∀ state, ∃ value reached, Program.exec program state = (.ok value, reached) ∧ reached.standing = state.standing

section Quiet

variable {α β : Type}

theorem Quiet.pure (value : α) : Quiet (pure value : Loop α) := by
  intro state
  exact ⟨value, state, rfl, rfl⟩

theorem Quiet.modify {update : LoopState → LoopState} (same : ∀ state, (update state).standing = state.standing) :
    Quiet (modify update : Loop Unit) := by
  intro state
  exact ⟨(), update state, rfl, same state⟩

theorem Quiet.bind {program : Loop α} {next : α → Loop β} (first : Quiet program)
    (second : ∀ value, Quiet (next value)) : Quiet (program >>= next) := by
  intro state
  obtain ⟨value, middle, ran, same⟩ := first state
  obtain ⟨result, reached, finished, kept⟩ := second value middle
  refine ⟨result, reached, ?_, kept.trans same⟩
  rw [exec_bind, ran]
  exact finished

theorem Quiet.read {next : LoopState → Loop β} (rest : ∀ seen, Quiet (next seen)) :
    Quiet (MonadState.get >>= next) := by
  intro state
  obtain ⟨result, reached, finished, kept⟩ := rest state state
  refine ⟨result, reached, ?_, kept⟩
  rw [exec_bind]
  exact finished

theorem Quiet.ite {condition : Prop} [Decidable condition] {yes no : Loop α} (taken : Quiet yes)
    (skipped : Quiet no) : Quiet (if condition then yes else no) := by
  by_cases decision : condition
  · rw [if_pos decision]
    exact taken
  · rw [if_neg decision]
    exact skipped

end Quiet

/-- Only a degraded notice counts as a call. -/
theorem notify_quiet {notice : Notice} (other : notice.isDegraded = false) : Quiet (notify notice) := by
  apply Quiet.modify
  intro state
  simp only [LoopState.standing, List.countP_cons, other]
  rfl

theorem accept_quiet {now : Nat} : Quiet (accept now path) :=
  .modify fun _ => rfl

theorem acceptAll_quiet {now : Nat} (paths : List String) : Quiet (acceptAll now paths) := by
  induction paths with
  | nil => exact .pure ()
  | cons path rest ih => exact accept_quiet.bind fun _ => ih

theorem oweFullSync_quiet : Quiet oweFullSync := .modify fun _ => rfl

theorem reportReload_quiet (reason : Option String) : Quiet (reportReload reason) := by
  cases reason with
  | none => exact .pure ()
  | some text => exact notify_quiet rfl

theorem handleRemovedDirectory_quiet : Quiet (handleRemovedDirectory view relative) := by
  apply Quiet.read
  intro seen
  apply Quiet.ite
  · exact oweFullSync_quiet.bind fun _ => accept_quiet
  · exact .ite (acceptAll_quiet _) (.pure ())

theorem handleMarkerDirectory_quiet : Quiet (handleMarkerDirectory view path relative) := by
  apply Quiet.read
  intro seen
  apply Quiet.ite
  · refine Quiet.bind (Quiet.modify fun _ => by rfl) fun _ => ?_
    exact acceptAll_quiet _
  · exact .pure ()

theorem handleNewDirectory_quiet : Quiet (handleNewDirectory view path relative) := by
  apply Quiet.read
  intro seen
  apply Quiet.ite
  · refine Quiet.bind (Quiet.modify fun _ => by rfl) fun _ => ?_
    apply Quiet.ite
    · exact accept_quiet.bind fun _ => Quiet.pure true
    · exact .pure false
  · exact .pure false

theorem handleFile_quiet : Quiet (handleFile view path relative) := by
  apply Quiet.read
  intro seen
  exact .ite (acceptAll_quiet _) (.pure ())

theorem handlePresentPath_quiet : Quiet (handlePresentPath view path relative) := by
  refine handleMarkerDirectory_quiet.bind fun _ => ?_
  refine handleNewDirectory_quiet.bind fun sawLink => ?_
  exact handleFile_quiet.bind fun _ => .pure sawLink

theorem handlePath_quiet {removal : RemovalHint} {normalized : NormalizedPath} :
    Quiet (handlePath view removal normalized) := by
  apply Quiet.read
  intro seen
  apply Quiet.ite
  · exact Quiet.pure false
  · refine .bind (.ite accept_quiet (.pure ())) fun _ => ?_
    refine .bind (.modify fun _ => by rfl) fun _ => ?_
    apply Quiet.ite
    · exact handleRemovedDirectory_quiet.bind fun _ => Quiet.pure _
    · exact handlePresentPath_quiet.bind fun _ => .pure _

theorem handlePaths_quiet {removal : RemovalHint} (paths : List NormalizedPath) :
    Quiet (handlePaths view removal paths) := by
  induction paths with
  | nil => exact .pure false
  | cons normalized rest ih => exact handlePath_quiet.bind fun _ => ih.bind fun _ => .pure _

theorem rearmDebounce_quiet {view : EventView} : Quiet (rearmDebounce view) := by
  apply Quiet.read
  intro seen
  apply Quiet.ite
  · exact Quiet.modify fun _ => rfl
  · exact .pure ()

/-- A degrading watch error stops a watcher that was not degraded, and tells its host. -/
def Failed (before after : Standing) : Prop :=
  (before.degraded.degraded = true ∧ after = before) ∨
    (before.disabled = false ∧ after.disabled = true ∧ after.calls = before.calls + 1)

/-- The program completes quietly, or it fails on a watch error. -/
def QuietUnless {α : Type} (fails : Bool) (program : Loop α) (state : LoopState) : Prop :=
  (∃ value reached, Program.exec program state = (.ok value, reached) ∧ reached.standing = state.standing) ∨
    (fails = true ∧ ∃ reached, Program.exec program state = (.error .watchDegraded, reached) ∧
      Failed state.standing reached.standing)

theorem noteWatchError_quiet {error : NotifyError} (state : LoopState)
    (milder : classifyNotifyError error ≠ .degrade) : (noteWatchError error state).standing = state.standing := by
  unfold noteWatchError
  rw [if_neg milder]
  simp only [LoopState.standing, List.countP_cons, Notice.isDegraded]
  rfl

/-- Marking a watcher that was not degraded is its one call. -/
theorem marked_standing {state : LoopState} (fresh : state.degraded.degraded ≠ true) (reason : String) :
    state.standing.disabled = false ∧
      ({ state with
        degraded := state.degraded.mark reason
        notices := .degraded reason :: state.notices } : LoopState).standing =
        ⟨state.degraded.mark reason, state.standing.calls + 1⟩ := by
  constructor
  · unfold Standing.disabled LoopState.standing
    rw [DegradedState.health_isDisabled, Bool.eq_false_iff.mpr fresh, Bool.false_and]
  · simp only [LoopState.standing, List.countP_cons, Notice.isDegraded, if_true]

theorem noteWatchError_fails {error : NotifyError} (state : LoopState)
    (degrading : classifyNotifyError error = .degrade) :
    Failed state.standing (noteWatchError error state).standing := by
  unfold noteWatchError
  rw [if_pos degrading]
  by_cases already : state.degraded.degraded = true
  · rw [if_pos already]
    exact .inl ⟨already, rfl⟩
  · rw [if_neg already]
    obtain ⟨open_, marked⟩ := marked_standing already ("file watcher backend error: " ++ error.text)
    right
    rw [marked]
    exact ⟨open_, rfl, rfl⟩

/-- Registering watches degrades the watcher only by errors that degrade. -/
theorem registerWatches_quietUnless (errors : List NotifyError) (state : LoopState) :
    QuietUnless (degrades errors) (registerWatches errors) state := by
  induction errors generalizing state with
  | nil => exact .inl ⟨(), state, rfl, rfl⟩
  | cons error rest ih =>
    unfold registerWatches QuietUnless
    simp only [handleWatchError, exec_bind, exec_modify, exec_pure]
    by_cases degrading : classifyNotifyError error = .degrade
    · right
      rw [if_pos degrading]
      refine ⟨?_, _, rfl, noteWatchError_fails state degrading⟩
      simp only [degrades, List.any_cons, degrading, decide_true, Bool.true_or]
    · rw [if_neg degrading]
      have same := noteWatchError_quiet state degrading
      have later := ih (noteWatchError error state)
      unfold QuietUnless at later
      rw [same] at later
      simpa only [degrades, List.any_cons, degrading, decide_false, Bool.false_or] using later

section QuietUnless

variable {α β : Type} {fails : Bool} {state : LoopState} {program : Loop α}

theorem Quiet.unless (quiet : Quiet program) : QuietUnless fails program state :=
  .inl (quiet state)

/-- What follows a quiet program fails only by itself. -/
theorem Quiet.bindUnless {next : α → Loop β} (first : Quiet program)
    (second : ∀ value reached, Program.exec program state = (.ok value, reached) →
      QuietUnless fails (next value) reached) : QuietUnless fails (program >>= next) state := by
  obtain ⟨value, middle, ran, same⟩ := first state
  have later := second value middle ran
  unfold QuietUnless at later ⊢
  rw [exec_bind, ran]
  rw [same] at later
  exact later

/-- A program that may fail is followed by one that may not. -/
theorem QuietUnless.bind {next : α → Loop β} (first : QuietUnless fails program state)
    (second : ∀ value, Quiet (next value)) : QuietUnless fails (program >>= next) state := by
  unfold QuietUnless
  rw [exec_bind]
  rcases first with ⟨value, middle, ran, same⟩ | ⟨failed, reached, ran, failure⟩
  · obtain ⟨result, reached, finished, kept⟩ := second value middle
    rw [ran]
    exact .inl ⟨result, reached, finished, kept.trans same⟩
  · rw [ran]
    exact .inr ⟨failed, reached, rfl, failure⟩

end QuietUnless

theorem applyReload_quietUnless {next : RuntimeWatchScope}
    {state : LoopState} : QuietUnless (degrades view.reconcileErrors) (applyReload view normalized next) state := by
  refine (registerWatches_quietUnless _ _).bind fun _ => ?_
  refine .bind (.modify fun _ => by rfl) fun _ => ?_
  exact oweFullSync_quiet.bind fun _ => acceptAll_quiet _

theorem handleControlChanges_quietUnless {changes : ControlChanges} {state : LoopState} :
    QuietUnless (changes.any && (reloadRuntimeScope state.scope changes view.reload).2.1 &&
      degrades view.reconcileErrors) (handleControlChanges view normalized changes) state := by
  unfold handleControlChanges QuietUnless
  rw [exec_bind, exec_get]
  by_cases counted : changes.any = true
  · simp only [counted, if_true, Bool.true_and]
    refine (reportReload_quiet _).bindUnless fun _ reached ran => ?_
    by_cases applied : (reloadRuntimeScope state.scope changes view.reload).2.1 = true
    · simp only [applied, if_true, Bool.true_and]
      exact applyReload_quietUnless.bind fun _ => .pure true
    · rw [if_neg applied]
      exact (Quiet.pure false).unless
  · dsimp only
    rw [if_neg counted]
    exact (Quiet.pure false).unless

theorem handleBatch_quietUnless {batch : WatchEventBatch} {view : EventView} {state : LoopState} :
    QuietUnless (state.reconciles batch view && degrades view.reconcileErrors) (handleBatch batch view) state := by
  unfold handleBatch QuietUnless
  rw [exec_bind, exec_get]
  apply handleControlChanges_quietUnless.bind
  intro reloaded
  exact (handlePaths_quiet _).bind fun _ => .pure _

theorem handleTopology_quietUnless {view : EventView} {changed : Bool} {state : LoopState} :
    QuietUnless (changed && state.scope.enabled && degrades view.relinkErrors) (handleTopology view changed)
      state := by
  unfold handleTopology QuietUnless
  rw [exec_bind, exec_get]
  by_cases relinking : (changed && state.scope.enabled) = true
  · simp only [relinking, if_true, Bool.true_and]
    refine (registerWatches_quietUnless _ _).bind fun _ => ?_
    exact .bind (.modify fun _ => by rfl) fun _ => oweFullSync_quiet
  · dsimp only
    rw [if_neg relinking]
    exact (Quiet.pure ()).unless

/-- A pausing program completes with a watcher that is not disabled, and makes no call. -/
def Pauses (program : Loop Unit) : Prop :=
  ∀ state, ∃ reached, Program.exec program state = (.ok (), reached) ∧ reached.standing.disabled = false ∧
    reached.standing.calls = state.standing.calls

theorem Pauses.read {next : LoopState → Loop Unit}
    (rest : ∀ seen, ∃ reached, Program.exec (next seen) seen = (.ok (), reached) ∧
      reached.standing.disabled = false ∧ reached.standing.calls = seen.standing.calls) :
    Pauses (MonadState.get >>= next) := by
  intro state
  rw [exec_bind]
  exact rest state

theorem Pauses.modify {update : LoopState → LoopState} (paused : ∀ state, (update state).standing.disabled = false ∧
      (update state).standing.calls = state.standing.calls) : Pauses (modify update : Loop Unit) := by
  intro state
  exact ⟨update state, rfl, paused state⟩

theorem Quiet.bindPauses {α : Type} {program : Loop α} {next : α → Loop Unit} (first : Quiet program)
    (second : ∀ value, Pauses (next value)) : Pauses (program >>= next) := by
  intro state
  obtain ⟨value, middle, ran, same⟩ := first state
  obtain ⟨reached, finished, running, calls⟩ := second value middle
  refine ⟨reached, ?_, running, ?_⟩
  · rw [exec_bind, ran]
    exact finished
  · rw [calls, same]

theorem recovering_not_disabled {state : LoopState} (paused : state.degraded.recovering = true) :
    state.standing.disabled = false := by
  unfold Standing.disabled LoopState.standing
  rw [DegradedState.health_isDisabled, paused, Bool.not_true, Bool.and_false]

/-- A recovery begins once. -/
theorem beginLostEventRecovery_pauses (now delay : Nat) (cause : String) :
    Pauses (beginLostEventRecovery now delay cause) := by
  apply Pauses.read
  intro seen
  by_cases paused : seen.degraded.recovering = true
  · rw [if_pos paused]
    exact ⟨seen, rfl, recovering_not_disabled paused, rfl⟩
  · rw [if_neg paused]
    exact ⟨_, rfl, rfl, rfl⟩

/-- The program moves the standing as its message may. -/
def Moves (loses fails : Bool) (program : Loop Unit) (state : LoopState) : Prop :=
  Move loses fails state.standing (Program.exec program state).1 (Program.exec program state).2.standing

section Moves

variable {loses fails : Bool} {state : LoopState} {program : Loop Unit}

theorem Quiet.moves (quiet : Quiet program) : Moves loses fails program state := by
  obtain ⟨_, reached, ran, same⟩ := quiet state
  unfold Moves
  rw [ran, same]
  exact .rest

theorem Failed.move {after : Standing} (failure : Failed state.standing after) (failed : fails = true) :
    Move loses fails state.standing (.error .watchDegraded) after := by
  rcases failure with ⟨already, rfl⟩ | ⟨fresh, stopped, calls⟩
  · exact .fail failed already
  · exact .degrade fresh stopped calls

theorem QuietUnless.moves (known : QuietUnless fails program state) : Moves loses fails program state := by
  unfold Moves
  rcases known with ⟨_, reached, ran, same⟩ | ⟨failed, reached, ran, failure⟩
  · rw [ran, same]
    exact .rest
  · rw [ran]
    exact failure.move failed

theorem Pauses.moves (pauses : Pauses program) (lost : loses = true) : Moves loses fails program state := by
  obtain ⟨reached, ran, running, calls⟩ := pauses state
  unfold Moves
  rw [ran]
  exact .pause lost running calls

theorem Moves.read {next : LoopState → Loop Unit} (moved : Moves loses fails (next state) state) :
    Moves loses fails (MonadState.get >>= next) state := by
  unfold Moves
  rw [exec_bind]
  exact moved

theorem Moves.modify {update : LoopState → LoopState} {next : Loop Unit}
    (same : (update state).standing = state.standing) (moved : Moves loses fails next (update state)) :
    Moves loses fails (MonadStateOf.modifyGet (fun state => ((), update state)) >>= fun _ => next) state := by
  unfold Moves at moved ⊢
  rw [same] at moved
  rw [exec_bind]
  exact moved

end Moves

/-- A rescan of an enabled scope begins a recovery, and any other batch keeps the standing. -/
theorem handleRescan_standing (view : EventView) (rescan : Bool) (state : LoopState) :
    ∃ reached, Program.exec (handleRescan view rescan) state = (.ok (), reached) ∧
      ((rescan && state.scope.enabled) = true ∧ reached.standing.disabled = false ∧
          reached.standing.calls = state.standing.calls ∨
        reached.standing = state.standing) := by
  unfold handleRescan
  rw [exec_bind, exec_get]
  by_cases lost : (rescan && state.scope.enabled) = true
  · have pauses := oweFullSync_quiet.bindPauses fun _ => beginLostEventRecovery_pauses view.now
      state.scope.debounce "the OS watcher reported dropped events or a change without a path"
    obtain ⟨reached, ran, running, calls⟩ := pauses state
    refine ⟨reached, ?_, .inl ⟨lost, running, calls⟩⟩
    dsimp only
    rw [if_pos lost]
    exact ran
  · refine ⟨state, ?_, .inr rfl⟩
    dsimp only
    rw [if_neg lost]
    rfl

/-- An event degrades the watcher only by the errors of what it reconciles and relinks. -/
theorem handleEvent_moves (batch : WatchEventBatch) (view : EventView) (state : LoopState) :
    Moves (state.rescans batch view)
      ((state.reconciles batch view && degrades view.reconcileErrors) ||
        (state.relinks batch view && degrades view.relinkErrors)) (handleEvent batch view) state := by
  unfold Moves handleEvent
  rw [exec_bind]
  rcases @handleBatch_quietUnless batch view state with
    ⟨changed, middle, handled, same⟩ | ⟨failed, reached, handled, failure⟩
  · rw [handled]
    dsimp only
    rw [exec_bind]
    have relinking : state.relinks batch view = (changed && middle.scope.enabled) := by
      unfold LoopState.relinks
      rw [handled]
    rcases @handleTopology_quietUnless view changed middle with
      ⟨_, linked, relinked, kept⟩ | ⟨failed, reached, relinked, failure⟩
    · rw [relinked]
      dsimp only
      have rescanning : state.rescans batch view = (batch.rescan && linked.scope.enabled) := by
        unfold LoopState.rescans
        rw [exec_bind, handled]
        dsimp only
        rw [relinked]
      obtain ⟨scanned, ran, outcome⟩ := handleRescan_standing view batch.rescan linked
      obtain ⟨_, reached, rearmed, unchanged⟩ := @rearmDebounce_quiet view scanned
      rw [exec_bind, ran]
      dsimp only
      rw [rearmed, unchanged]
      rcases outcome with ⟨lost, running, calls⟩ | rest
      · rw [kept, same] at calls
        exact Move.pause (rescanning.trans lost) running calls
      · rw [rest, kept, same]
        exact Move.rest
    · rw [relinked]
      rw [same] at failure
      exact failure.move (by rw [relinking, failed, Bool.or_true])
  · rw [handled]
    exact failure.move (by rw [failed, Bool.true_or])

/-- Drift in an enabled and running scope begins a recovery. -/
theorem sentinelTick_moves (config : WatchConfig) (view : TickView) (state : LoopState) :
    Moves (state.scope.enabled && (match view.drift with
      | .ok (some _) => true
      | _ => false)) false (sentinelTick config view) state := by
  apply Moves.modify rfl
  apply Moves.read
  by_cases idle : (state.degraded.recovering || !state.scope.enabled) = true
  · dsimp only
    rw [if_pos idle]
    exact (Quiet.pure ()).moves
  · dsimp only
    rw [if_neg idle]
    have enabled : state.scope.enabled = true := by
      cases on : state.scope.enabled with
      | true => rfl
      | false =>
        rw [on, Bool.not_false, Bool.or_true] at idle
        exact absurd rfl idle
    rw [enabled]
    rcases view.drift with text | (_ | detail)
    · apply Quiet.moves
      refine Quiet.bind (Quiet.ite (notify_quiet rfl) (Quiet.pure ())) fun _ => ?_
      exact .modify fun _ => rfl
    · exact (Quiet.pure ()).moves
    · have rewatched : Quiet (rewatchRoot config.projectRoot view.rewatchFailure) := by
        cases view.rewatchFailure with
        | none => exact .pure ()
        | some error => exact notify_quiet rfl
      apply Pauses.moves ?_ rfl
      refine rewatched.bindPauses fun _ => ?_
      exact oweFullSync_quiet.bindPauses fun _ => beginLostEventRecovery_pauses _ _ _

/-- An attempt that ends done lets a full sync end a recovery. -/
theorem settleAttempt_done (config : WatchConfig) (view : TickView) (batch : List (String × PendingInfo))
    (fullSync : Bool) (controlPaths : Option RecordedInputs) (state : LoopState) :
    ∃ reached, Program.exec (settleAttempt config view batch fullSync (.done controlPaths)) state =
        (.ok (), reached) ∧
      reached.standing = ⟨if fullSync then state.degraded.recover else state.degraded, state.standing.calls⟩ := by
  refine ⟨_, rfl, ?_⟩
  simp only [LoopState.standing, List.countP_cons, Notice.isDegraded]
  rfl

/-- Contention pauses the watcher. -/
theorem settleAttempt_pauses (config : WatchConfig) (view : TickView) (batch : List (String × PendingInfo))
    (fullSync : Bool) (reason : String) : Pauses (settleAttempt config view batch fullSync (.degraded reason)) := by
  have paused : Pauses (pauseForContention config view batch reason) := by
    apply Pauses.read
    intro seen
    have told : Quiet (if (!seen.degraded.recovering) = true then
        notify (.syncError ("auto-sync paused: " ++ reason ++ "; retrying a full reconcile every " ++
          toString (config.lockRecoveryInterval / 1000) ++ "s")) else pure ()) :=
      .ite (notify_quiet rfl) (.pure ())
    exact told.bindPauses (fun _ => .modify fun _ => by exact ⟨rfl, rfl⟩) seen
  apply Pauses.read
  intro seen
  have counted : Quiet (modify fun state : LoopState =>
      { state with consecutiveSyncErrors := seen.consecutiveSyncErrors } : Loop Unit) := .modify fun _ => rfl
  exact counted.bindPauses (fun _ => (Quiet.pure ()).bindPauses fun _ => paused) seen

/-- Persistent failures stop a watcher that was not disabled, and tell its host. -/
def Stopped (before after : Standing) : Prop :=
  (before.disabled = true ∧ after = before) ∨
    (before.disabled = false ∧ after.disabled = true ∧ after.calls = before.calls + 1)

/-- Disabling the sync stops the watcher. -/
theorem disableSync_stops (reason : String) (state : LoopState) :
    ∃ reached, Program.exec (disableSync reason) state = (.error .syncDisabled, reached) ∧
      Stopped state.standing reached.standing := by
  refine ⟨_, rfl, ?_⟩
  have disabled : state.standing.disabled = (state.degraded.degraded && !state.degraded.recovering) :=
    DegradedState.health_isDisabled state.degraded
  by_cases open_ : (!state.degraded.degraded || state.degraded.recovering) = true
  · dsimp only
    rw [if_pos open_]
    right
    refine ⟨?_, rfl, ?_⟩
    · rw [disabled]
      cases on : state.degraded.degraded <;> cases paused : state.degraded.recovering <;> simp_all
    · simp only [LoopState.standing, List.countP_cons, Notice.isDegraded, if_true]
  · dsimp only
    rw [if_neg open_]
    left
    refine ⟨?_, rfl⟩
    rw [disabled]
    cases on : state.degraded.degraded <;> cases paused : state.degraded.recovering <;> simp_all

/-- A failed attempt surfaces, or it is the last one. -/
theorem settleAttempt_error (config : WatchConfig) (view : TickView) (batch : List (String × PendingInfo))
    (fullSync : Bool) (reason : String) (state : LoopState) :
    ∃ reached, (Program.exec (settleAttempt config view batch fullSync (.error reason)) state = (.ok (), reached) ∧
        reached.standing = state.standing) ∨
      (Program.exec (settleAttempt config view batch fullSync (.error reason)) state =
          (.error .syncDisabled, reached) ∧ Stopped state.standing reached.standing) := by
  have restored (errors : Nat) : Quiet (do
      modify fun state : LoopState => { state with consecutiveSyncErrors := errors }
      reportAttempt view batch fullSync (.error reason)) := by
    refine .bind (.modify fun _ => by rfl) fun _ => ?_
    exact .bind (notify_quiet rfl) fun _ => .modify fun _ => rfl
  obtain ⟨_, middle, ran, same⟩ := restored (state.consecutiveSyncErrors + 1) state
  unfold settleAttempt
  rw [exec_bind, exec_get]
  by_cases last : maxConsecutiveSyncErrors ≤ state.consecutiveSyncErrors + 1
  · have decided : ∃ text, classifyPersistentFailure (.error reason) state.consecutiveSyncErrors =
        (.disable text, state.consecutiveSyncErrors + 1) := ⟨_, if_pos last⟩
    obtain ⟨text, decided⟩ := decided
    obtain ⟨reached, stopped, moved⟩ := disableSync_stops text middle
    refine ⟨reached, .inr ⟨?_, same ▸ moved⟩⟩
    dsimp only
    rw [decided, ← bind_assoc, exec_bind]
    dsimp only
    rw [ran]
    exact stopped
  · have decided : classifyPersistentFailure (.error reason) state.consecutiveSyncErrors =
        (.surface, state.consecutiveSyncErrors + 1) := if_neg last
    refine ⟨middle, .inl ⟨?_, same⟩⟩
    dsimp only
    rw [decided, ← bind_assoc, exec_bind]
    dsimp only
    rw [ran]
    rfl

/-- A burst is taken as a recovery. -/
theorem takeBatch_burst {view : TickView} {done : Bool} {state : LoopState}
    (burst : state.isBurst = true) : (state.takeBatch config view done).degraded.recovering = true := by
  unfold LoopState.takeBatch
  dsimp only
  rw [burst, Bool.true_and]
  cases paused : state.degraded.recovering with
  | true => exact paused
  | false => rfl

theorem takeBatch_small {config : WatchConfig} {view : TickView} {done : Bool} {state : LoopState}
    (small : state.isBurst = false) : (state.takeBatch config view done).standing = state.standing := by
  unfold LoopState.takeBatch LoopState.standing
  dsimp only
  rw [small, Bool.false_and]
  rfl

/-- An attempt over a burst leaves a watcher that is paused, healthy or stopped again. -/
theorem settleAttempt_burst {view : TickView}
    {attempt : SyncAttempt} {state : LoopState} {before : Standing} {fails : Bool}
    (paused : state.degraded.recovering = true) (counted : state.standing.calls = before.calls) :
    Move true fails before (Program.exec (settleAttempt config view batch true attempt) state).1
      (Program.exec (settleAttempt config view batch true attempt) state).2.standing := by
  have running := recovering_not_disabled paused
  cases attempt with
  | done controlPaths =>
    obtain ⟨reached, ran, moved⟩ := settleAttempt_done config view batch true controlPaths state
    rw [ran, moved]
    refine Move.pause rfl ?_ counted
    unfold Standing.disabled DegradedState.recover
    rw [if_pos rfl, if_pos paused]
    rfl
  | degraded reason =>
    obtain ⟨reached, ran, still, calls⟩ := settleAttempt_pauses config view batch true reason state
    rw [ran]
    exact Move.pause rfl still (calls.trans counted)
  | error reason =>
    obtain ⟨reached, ⟨ran, same⟩ | ⟨ran, stopped⟩⟩ := settleAttempt_error config view batch true reason state
    · rw [ran, same]
      exact Move.pause rfl running counted
    · rw [ran]
      rcases stopped with ⟨disabled, _⟩ | ⟨_, marked, calls⟩
      · rw [running] at disabled
        cases disabled
      · exact Move.disable (.inr rfl) marked (by rw [calls, counted])

/-- Any other attempt pauses the watcher only for contention. -/
theorem settleAttempt_moves {view : TickView}
    {fullSync : Bool} {attempt : SyncAttempt} {state : LoopState} {fails : Bool} :
    Moves attempt.isDegraded fails (settleAttempt config view batch fullSync attempt) state := by
  cases attempt with
  | done controlPaths =>
    obtain ⟨reached, ran, moved⟩ := settleAttempt_done config view batch fullSync controlPaths state
    unfold Moves
    rw [ran, moved]
    by_cases recovered : fullSync = true ∧ state.degraded.recovering = true
    · refine Move.recover recovered.2 ?_ rfl
      unfold Standing.disabled DegradedState.recover
      rw [if_pos recovered.1, if_pos recovered.2]
      rfl
    · have kept : (if fullSync = true then state.degraded.recover else state.degraded) = state.degraded := by
        unfold DegradedState.recover
        split
        · rename_i whole
          exact if_neg fun paused => recovered ⟨whole, paused⟩
        · rfl
      rw [kept]
      exact Move.rest
  | degraded reason => exact (settleAttempt_pauses config view batch fullSync reason).moves rfl
  | error reason =>
    obtain ⟨reached, ⟨ran, same⟩ | ⟨ran, stopped⟩⟩ := settleAttempt_error config view batch fullSync reason state
    · unfold Moves
      rw [ran, same]
      exact Move.rest
    · unfold Moves
      rw [ran]
      rcases stopped with ⟨disabled, same⟩ | ⟨open_, marked, calls⟩
      · rw [same]
        exact Move.stay disabled
      · exact Move.disable (.inl open_) marked calls

theorem attemptSync_moves (config : WatchConfig) (view : TickView) (state : LoopState) :
    Moves (state.isBurst || (state.attempt config view).isDegraded) false (attemptSync config view) state := by
  apply Moves.read
  unfold Moves
  rw [exec_bind, exec_modify]
  dsimp only
  cases burst : state.isBurst with
  | true =>
    have whole : state.syncsWhole = true := by rw [LoopState.syncsWhole, burst, Bool.or_true]
    rw [whole]
    exact settleAttempt_burst (takeBatch_burst burst) rfl
  | false =>
    rw [← @takeBatch_small config view (state.attempt config view).isDone state burst]
    exact settleAttempt_moves

/-- A step moves the standing only as its message says. -/
theorem step_moves (config : WatchConfig) (message : LoopMessage) (state : LoopState) :
    Moves (state.beginsRecovery config message) (state.meetsDegradingError message) (step config message) state := by
  cases message with
  | event batch view => exact handleEvent_moves batch view state
  | watchError error => exact (registerWatches_quietUnless [error] state).moves
  | snapshot => exact (Quiet.pure ()).moves
  | stop => exact .stop
  | timeout view =>
    apply Moves.read
    unfold LoopState.beginsRecovery
    by_cases due : state.deadline.isSome = true
    · simp only [due, if_true]
      exact attemptSync_moves config view state
    · by_cases idle : state.sentinelDue.isSome = true
      · simp only [due, idle, if_true, Bool.true_and]
        exact sentinelTick_moves config view state
      · simp only [due, idle]
        exact (Quiet.pure ()).moves

/-- An allowed move keeps the count honest, keeps a disabled watcher disabled, and ends in one. -/
theorem Move.keeps {state : LoopState} {ended : Except LoopEnd Unit} {after : Standing}
    (move : Move (state.beginsRecovery config message) (state.meetsDegradingError message) state.standing ended after)
    (honest : state.standing.Honest) (allowed : state.allows config message = true) :
    after.Honest ∧ (state.standing.disabled = true → after.disabled = true) ∧
      (ended = .error .watchDegraded ∨ ended = .error .syncDisabled → after.disabled = true) := by
  unfold LoopState.allows at allowed
  rw [Bool.and_eq_true, Bool.not_eq_true', Bool.not_eq_true'] at allowed
  obtain ⟨absorbing, heard⟩ := allowed
  have still (lost : state.beginsRecovery config message = true) : state.standing.disabled = false := by
    rw [lost, Bool.and_true] at absorbing
    exact absorbing
  unfold Standing.Honest at honest ⊢
  cases move with
  | rest => exact ⟨honest, id, by simp⟩
  | stop => exact ⟨honest, id, by simp⟩
  | recover paused running calls =>
    have before : state.standing.disabled = false := recovering_not_disabled paused
    rw [before] at honest
    rw [running, before]
    exact ⟨calls.trans honest, by simp, by simp⟩
  | pause lost running calls =>
    rw [still lost] at honest
    rw [running, still lost]
    exact ⟨calls.trans honest, by simp, by simp⟩
  | fail failed already =>
    have disabled : state.standing.disabled = true := by
      rw [failed, Bool.and_true, DegradedState.health_isRecovering] at heard
      unfold Standing.disabled
      rw [DegradedState.health_isDisabled]
      unfold LoopState.standing at already ⊢
      dsimp only at already ⊢
      rw [already, Bool.true_and] at heard ⊢
      rw [heard]
      rfl
    exact ⟨honest, id, fun _ => disabled⟩
  | degrade fresh stopped calls =>
    rw [fresh] at honest
    rw [stopped]
    exact ⟨by rw [calls, honest]; rfl, fun _ => rfl, fun _ => rfl⟩
  | disable open_ stopped calls =>
    have fresh : state.standing.disabled = false := open_.elim id still
    rw [fresh] at honest
    rw [stopped]
    exact ⟨by rw [calls, honest]; rfl, fun _ => rfl, fun _ => rfl⟩
  | stay stopped => exact ⟨honest, id, fun _ => stopped⟩

theorem eventLoop_cons {rest : List LoopMessage} {state : LoopState} : eventLoop config (message :: rest) state =
      match Program.exec (step config message) state with
      | (.ok (), reached) => eventLoop config rest reached
      | (.error ended, reached) => (some ended, reached) := rfl

theorem allowsAll_cons {rest : List LoopMessage} {state : LoopState} : allowsAll config (message :: rest) state =
      (state.allows config message &&
        (match Program.exec (step config message) state with
        | (.ok (), reached) => allowsAll config rest reached
        | (.error _, _) => true)) := rfl

/-- The state a run ends in is honest, it is disabled if the run began so, and a failed run ends disabled. -/
theorem eventLoop_keeps {messages : List LoopMessage} {state : LoopState}
    (honest : state.standing.Honest) (allowed : allowsAll config messages state = true) :
    (eventLoop config messages state).2.standing.Honest ∧
      (state.standing.disabled = true → (eventLoop config messages state).2.standing.disabled = true) ∧
      ((eventLoop config messages state).1 = some .watchDegraded ∨
          (eventLoop config messages state).1 = some .syncDisabled →
        (eventLoop config messages state).2.standing.disabled = true) := by
  induction messages generalizing state with
  | nil => exact ⟨honest, id, fun ended => by simp [eventLoop] at ended⟩
  | cons message rest ih =>
    rw [allowsAll_cons, Bool.and_eq_true] at allowed
    obtain ⟨now, later⟩ := allowed
    have kept := (step_moves config message state).keeps honest now
    rw [eventLoop_cons]
    rcases ended : Program.exec (step config message) state with ⟨error | ⟨⟩, middle⟩
    · rw [ended] at kept
      refine ⟨kept.1, kept.2.1, ?_⟩
      intro failed
      apply kept.2.2
      simpa only [Option.some.injEq, Except.error.injEq] using failed
    · rw [ended] at kept later
      obtain ⟨honest', disabled', failed'⟩ := ih kept.1 later
      exact ⟨honest', fun disabled => disabled' (kept.2.1 disabled), failed'⟩

/-- A longer run continues a shorter one that has not ended. -/
theorem eventLoop_append {before after : List LoopMessage} {state : LoopState} :
    eventLoop config (before ++ after) state =
      match eventLoop config before state with
      | (none, reached) => eventLoop config after reached
      | (some ended, reached) => (some ended, reached) := by
  induction before generalizing state with
  | nil => rfl
  | cons message rest ih =>
    rw [List.cons_append, eventLoop_cons, eventLoop_cons]
    rcases Program.exec (step config message) state with ⟨error | ⟨⟩, middle⟩
    · rfl
    · exact ih

/-- The two halves of an allowed run are allowed. -/
theorem allowsAll_append {config : WatchConfig} {before after : List LoopMessage} {state reached : LoopState}
    (allowed : allowsAll config (before ++ after) state = true) : allowsAll config before state = true ∧
      (eventLoop config before state = (none, reached) → allowsAll config after reached = true) := by
  induction before generalizing state with
  | nil =>
    refine ⟨rfl, ?_⟩
    intro same
    cases same
    exact allowed
  | cons message rest ih =>
    rw [List.cons_append, allowsAll_cons, Bool.and_eq_true] at allowed
    rw [allowsAll_cons, Bool.and_eq_true, eventLoop_cons]
    rcases ended : Program.exec (step config message) state with ⟨error | ⟨⟩, middle⟩
    · exact ⟨⟨allowed.1, rfl⟩, fun impossible => by cases impossible⟩
    · rw [ended] at allowed
      exact ⟨⟨allowed.1, (ih allowed.2).1⟩, (ih allowed.2).2⟩

/-- A disabled watcher stays so between any two points of an allowed run. -/
theorem eventLoop_absorbs {before after : List LoopMessage} {state : LoopState}
    (honest : state.standing.Honest) (allowed : allowsAll config (before ++ after) state = true)
    (disabled : (eventLoop config before state).2.standing.disabled = true) :
    (eventLoop config (before ++ after) state).2.standing.disabled = true := by
  rw [eventLoop_append]
  rcases ended : eventLoop config before state with ⟨_ | failed, reached⟩
  · have halves := @allowsAll_append config before after state reached allowed
    have kept := eventLoop_keeps honest halves.1
    rw [ended] at kept disabled
    exact (eventLoop_keeps kept.1 (halves.2 ended)).2.1 disabled
  · rw [ended] at disabled
    exact disabled

/-- A registration keeps the standing honest and a disabled watcher disabled. -/
theorem register_keeps {projectRoot : String} {registration : Registration} {state reached : LoopState}
    (registered : register projectRoot state registration = .ok reached) (honest : state.standing.Honest) :
    reached.standing.Honest ∧ (state.standing.disabled = true → reached.standing.disabled = true) := by
  unfold register at registered
  split at registered
  · cases registered
    exact ⟨honest, id⟩
  · split at registered
    · dsimp only at registered
      split at registered
      · cases registered
        exact ⟨honest, id⟩
      · rename_i fresh
        cases registered
        obtain ⟨open_, marked⟩ := marked_standing fresh ("watch " ++ registration.dir ++ " failed: " ++ _)
        unfold Standing.Honest at honest
        rw [open_] at honest
        rw [marked]
        exact ⟨congrArg (· + 1) honest, fun _ => rfl⟩
    · cases registered
      unfold Standing.Honest LoopState.standing at honest ⊢
      rw [List.countP_cons]
      exact ⟨honest, id⟩
    · split at registered <;> cases registered
      exact ⟨honest, id⟩

/-- Registering keeps the standing honest. -/
theorem registerAll_keeps {projectRoot : String} {registrations : List Registration} {state reached : LoopState}
    (registered : registerAll projectRoot state registrations = .ok reached) (honest : state.standing.Honest) :
    reached.standing.Honest ∧ (state.standing.disabled = true → reached.standing.disabled = true) := by
  induction registrations generalizing state with
  | nil =>
    cases registered
    exact ⟨honest, id⟩
  | cons registration rest ih =>
    rw [registerAll, List.foldlM_cons] at registered
    cases first : register projectRoot state registration with
    | error error =>
      rw [first] at registered
      cases registered
    | ok middle =>
      rw [first] at registered
      have kept := register_keeps first honest
      have later := ih registered kept.1
      exact ⟨later.1, fun disabled => later.2 (kept.2 disabled)⟩

theorem warnPartial_standing (registrations : List Registration) (state : LoopState) :
    (warnPartial registrations state).standing = state.standing := by
  unfold warnPartial
  split
  · unfold LoopState.standing
    rw [List.countP_cons]
    rfl
  · rfl

/-- In every run whose messages are all allowed, a disabled watcher stays disabled from its start on, and a loop
that ended on a watch error or on persistent failures left it disabled with exactly one call. -/
theorem disabled_watcher_stays_disabled (config : WatchConfig) (controlFiles : ControlFiles)
    (scope : RuntimeWatchScope) (knownDirs : List String) (links : LinkState) (controlPaths : RecordedInputs)
    (sentinelDue : Option Nat) (registrations : List Registration) (messages : List LoopMessage) (started : LoopState)
    (begun : start config.projectRoot
      (initialLoop controlFiles scope knownDirs links controlPaths sentinelDue) registrations = .ok started)
    (allowed : allowsAll config messages started = true) : (∀ earlier later middle, registrations = earlier ++ later →
      registerAll config.projectRoot (initialLoop controlFiles scope knownDirs links controlPaths sentinelDue)
        earlier = .ok middle →
      middle.degraded.health.isDisabled = true → started.degraded.health.isDisabled = true) ∧
    (∀ before after, messages = before ++ after →
      (eventLoop config before started).2.degraded.health.isDisabled = true →
      (eventLoop config messages started).2.degraded.health.isDisabled = true) ∧
    ((eventLoop config messages started).1 = some .watchDegraded ∨
        (eventLoop config messages started).1 = some .syncDisabled →
      (eventLoop config messages started).2.degraded.health.isDisabled = true ∧
        (eventLoop config messages started).2.notices.countP Notice.isDegraded = 1) := by
  obtain ⟨registered, ran, rfl⟩ := start_registered begun
  have same := warnPartial_standing registrations registered
  have honest : (warnPartial registrations registered).standing.Honest := by
    rw [same]
    exact (registerAll_keeps ran rfl).1
  refine ⟨?_, ?_, ?_⟩
  · intro earlier later middle split first disabled
    subst split
    rw [registerAll, List.foldlM_append] at ran
    change (registerAll config.projectRoot _ earlier >>= fun state => registerAll config.projectRoot state later) =
      _ at ran
    rw [first] at ran
    have kept := (registerAll_keeps ran (registerAll_keeps first rfl).1).2 disabled
    change (warnPartial (earlier ++ later) registered).standing.disabled = true
    rw [same]
    exact kept
  · intro before after split disabled
    subst split
    exact eventLoop_absorbs honest allowed disabled
  · intro failed
    have kept := eventLoop_keeps honest allowed
    have disabled := kept.2.2 failed
    have counted := kept.1
    unfold Standing.Honest at counted
    rw [disabled] at counted
    exact ⟨disabled, counted⟩

def fileTableExhausted : NotifyError := ⟨.io (some emfile), "Too many open files (os error 24)"⟩

def exhaustedStart : List Registration := [⟨"/project/src", some fileTableExhausted⟩]

/-- The start could not watch one directory, and the loop then sees the same error. -/
theorem exhausted_start_stays_disabled : ∃ started, start "/project" openLoop exhaustedStart = .ok started ∧
      started.degraded.health.isDisabled = true ∧
      (eventLoop openConfig
        [.event ⟨["src/lib.rs"], .none, false⟩ (plainView 1000), .watchError fileTableExhausted] started).1 =
        some .watchDegraded ∧
      (eventLoop openConfig
        [.event ⟨["src/lib.rs"], .none, false⟩ (plainView 1000), .watchError fileTableExhausted]
        started).2.degraded.health.isDisabled = true ∧
      (eventLoop openConfig
        [.event ⟨["src/lib.rs"], .none, false⟩ (plainView 1000), .watchError fileTableExhausted]
        started).2.notices.countP Notice.isDegraded = 1 := by
  refine ⟨_, rfl, rfl, rfl, ?_⟩
  exact (disabled_watcher_stays_disabled openConfig
    ⟨".codegraph/config.toml", "codegraph.json", ".gitignore", ".git/info/exclude"⟩
    ⟨openPolicy, 500, true⟩ [] ⟨[], [], []⟩ ⟨[], []⟩ none exhaustedStart
    [.event ⟨["src/lib.rs"], .none, false⟩ (plainView 1000), .watchError fileTableExhausted] _ rfl rfl).2.2
    (.inl rfl)

/-- Dropped events make a disabled watcher recover, and a recovering watcher that meets an exhausted file table
ends without a call. -/
theorem dropped_events_undo_disabled : (∃ started, start "/project" openLoop exhaustedStart = .ok started ∧
      started.degraded.health.isDisabled = true ∧
      (eventLoop openConfig [.event ⟨[], .none, true⟩ (plainView 1000)] started).2.degraded.health.isDisabled =
        false) ∧
    (eventLoop openConfig [.event ⟨[], .none, true⟩ (plainView 1000), .watchError fileTableExhausted]
      openLoop).1 = some .watchDegraded ∧
    (eventLoop openConfig [.event ⟨[], .none, true⟩ (plainView 1000), .watchError fileTableExhausted]
      openLoop).2.degraded.health.isDisabled = false ∧
    (eventLoop openConfig [.event ⟨[], .none, true⟩ (plainView 1000), .watchError fileTableExhausted]
      openLoop).2.notices.countP Notice.isDegraded = 0 := by
  exact ⟨⟨_, rfl, rfl, rfl⟩, rfl, rfl, rfl⟩

end Codegraph.Watch
