import Codegraph.Watch.Health
import Mathlib.Data.List.Infix
import Mathlib.Algebra.Group.Nat.Defs

/- This file runs the watcher's event loop over its messages. -/

namespace Codegraph.Watch
open Interruptible

structure WatchPolicy where
  normalizeRelative : String → Option String
  shouldWatchDir : String → Bool
  watchesForThemeMarkers : String → Bool
  mayMarkATheme : String → Bool
  shouldHandleFile : String → Bool
  allowsFilePath : String → Bool
  isProjectControlFile : String → Bool

structure RuntimeWatchScope where
  policy : WatchPolicy
  debounce : Nat
  enabled : Bool

structure ControlChanges where
  configToml : Bool
  codegraphJson : Bool
  rootGitignore : Bool
  deriving DecidableEq

def ControlChanges.none : ControlChanges := ⟨false, false, false⟩

def ControlChanges.any (changes : ControlChanges) : Bool :=
  changes.configToml || changes.codegraphJson || changes.rootGitignore

structure ControlFiles where
  configToml : String
  codegraphJson : String
  rootGitignore : String
  repositoryExclude : String
  deriving DecidableEq

def ControlFiles.classify (files : ControlFiles) (relative : String) (changes : ControlChanges) :
    Bool × ControlChanges :=
  if relative = files.configToml then (true, { changes with configToml := true })
  else if relative = files.codegraphJson then (true, { changes with codegraphJson := true })
  else if relative = files.rootGitignore ∨ relative = files.repositoryExclude then
    (true, { changes with rootGitignore := true })
  else (false, changes)

/-- What a reload finds on disk, with the policy rebuilt from it. -/
structure ReloadSources where
  config : Except String (Nat × Bool)
  policy : WatchPolicy

/-- A malformed configuration keeps the last valid one. -/
def reloadRuntimeScope (previous : RuntimeWatchScope) (changes : ControlChanges) (sources : ReloadSources) :
    RuntimeWatchScope × Bool × Option String :=
  let configured : RuntimeWatchScope × Bool × Option String :=
    if changes.configToml then
      match sources.config with
      | .ok (debounce, enabled) => ({ previous with debounce, enabled }, true, none)
      | .error err =>
        (previous, changes.rootGitignore,
          some ("watch config reload failed; keeping the last valid config: " ++ err))
    else (previous, changes.rootGitignore, none)
  let applied := configured.2.1 || changes.codegraphJson
  (if applied then { configured.1 with policy := sources.policy } else configured.1, applied, configured.2.2)

inductive RemovalHint where
  | none
  | directory
  | ambiguous
  deriving DecidableEq

structure WatchEventBatch where
  paths : List String
  removal : RemovalHint
  rescan : Bool
  deriving DecidableEq

def effectiveRemoval (hint : RemovalHint) (relative : String) (knownDirs : List String) (isDirNow : Bool) :
    RemovalHint :=
  if hint = .none ∧ isDirNow = false ∧ relative ∈ knownDirs then .directory else hint

/-- A removed directory also forgets the directories below it. -/
def classifyRemovedDirectory (hint : RemovalHint) (relative : String) (knownDirs : List String) :
    Bool × List String :=
  let removed :=
    match hint with
    | .directory => true
    | .ambiguous => decide (relative ∈ knownDirs)
    | .none => false
  if removed then
    (true, knownDirs.filter fun known => known ≠ relative ∧ ¬ (relative ++ "/").toList.isPrefixOf known.toList)
  else (false, knownDirs)

structure LinkState where
  linkPaths : List String
  watchedDirs : List String
  aliases : List (String × List String)
  deriving DecidableEq

def LinkState.aliasesOf (links : LinkState) (relative : String) : List String :=
  (links.aliases.filter fun entry => entry.1 = relative).flatMap Prod.snd

/-- What the loop sees of one path on disk. -/
structure DiskView where
  isDir : String → Bool
  isSymlink : String → Bool
  entries : String → List String
  newDirs : String → List String
  sawLink : String → Bool

def LinkState.isTopologyEvent (links : LinkState) (disk : DiskView) (path relative : String) : Bool :=
  disk.isSymlink path || decide (relative ∈ links.linkPaths) ||
    (decide (relative ∈ links.watchedDirs) && !disk.isDir path) ||
    (links.aliases.any (fun entry => entry.1 = relative) && disk.isDir path)

structure RecordedInputs where
  paths : List String
  memberListings : List String
  deriving DecidableEq

def parentOf (relative : String) : String :=
  String.ofList (relative.toList.reverse.dropWhile (· ≠ '/')).tail.reverse

def RecordedInputs.mayMove (inputs : RecordedInputs) (relative : String) (isDir : Bool) : Bool :=
  decide (relative ∈ inputs.paths) || (isDir && decide (parentOf relative ∈ inputs.memberListings))

structure PendingInfo where
  firstSeenMs : Nat
  lastSeenMs : Nat
  deriving DecidableEq

/-- The journal lists what the loop accepted, when it came to owe a full sync, and every attempt. -/
inductive JournalEntry where
  | accepted (path : String)
  | owed
  | attempted (paths : List String) (fullSync done : Bool)
  deriving DecidableEq

/-- The field `journal` is newest first, and no step reads it. -/
structure LoopState where
  controlFiles : ControlFiles
  scope : RuntimeWatchScope
  knownDirs : List String
  links : LinkState
  controlPaths : RecordedInputs
  pending : List (String × PendingInfo)
  deadline : Option Nat
  consecutiveSyncErrors : Nat
  fullSyncPending : Bool
  sentinelDue : Option Nat
  driftErrorReported : Bool
  degraded : DegradedState
  notices : List Notice
  journal : List JournalEntry

/-- The loop ends on request, on a watch error that degrades it, or after persistent failures. -/
inductive LoopEnd where
  | stopped
  | watchDegraded
  | syncDisabled
  deriving DecidableEq

abbrev Loop (α : Type) := Program LoopEnd LoopState α

structure WatchConfig where
  projectRoot : String
  lockContentionBudget : Nat
  lockRecoveryInterval : Nat
  driftSentinel : Option Nat
  deriving DecidableEq

def notify (notice : Notice) : Loop Unit :=
  modify fun state => { state with notices := notice :: state.notices }

/-- An entry keeps its first sighting and updates its last one. -/
def sight (pending : List (String × PendingInfo)) (path : String) (now : Nat) : List (String × PendingInfo) :=
  if pending.any (fun entry => entry.1 = path) then
    pending.map fun entry => if entry.1 = path then (path, { entry.2 with lastSeenMs := now }) else entry
  else pending ++ [(path, ⟨now, now⟩)]

def accept (now : Nat) (path : String) : Loop Unit :=
  modify fun state =>
    { state with pending := sight state.pending path now, journal := .accepted path :: state.journal }

def acceptAll (now : Nat) (paths : List String) : Loop Unit :=
  match paths with
  | [] => pure ()
  | path :: rest => do
      accept now path
      acceptAll now rest

def oweFullSync : Loop Unit :=
  modify fun state => { state with fullSyncPending := true, journal := .owed :: state.journal }

/-- A degrading error marks a watcher that was not degraded before. -/
def noteWatchError (error : NotifyError) (state : LoopState) : LoopState :=
  if classifyNotifyError error = .degrade then
    if state.degraded.degraded then state
    else
      let reason := "file watcher backend error: " ++ error.text
      { state with degraded := state.degraded.mark reason, notices := .degraded reason :: state.notices }
  else { state with notices := .syncError ("file watcher warning: " ++ error.text) :: state.notices }

def handleWatchError (error : NotifyError) : Loop WatchErrorClass := do
  modify (noteWatchError error)
  return classifyNotifyError error

/-- Registering watches stops at the first error that degrades the watcher. -/
def registerWatches : List NotifyError → Loop Unit
  | [] => pure ()
  | error :: rest => do
      let class_ ← handleWatchError error
      if class_ = .degrade then throw .watchDegraded else registerWatches rest

def beginLostEventRecovery (now delay : Nat) (cause : String) : Loop Unit := do
  let state ← get
  if state.degraded.recovering then pure ()
  else modify fun state =>
    { state with
      degraded := state.degraded.markRecovering ("events may have been lost: " ++ cause)
      deadline := some (now + delay) }

/-- What the loop sees while it handles one event batch. -/
structure EventView where
  now : Nat
  logicalPath : String → String
  reload : ReloadSources
  knownDirectoryPaths : List String
  reconcileErrors : List NotifyError
  disk : DiskView
  themeMarkers : String → List String
  isMaybeDeletedSource : String → Bool
  nextLinks : LinkState
  relinkErrors : List NotifyError

structure NormalizedPath where
  path : String
  relative : String
  isControl : Bool
  deriving DecidableEq

/-- The paths inside the project are kept, and the control files among them are counted. -/
def normalizeAll (view : EventView) (scope : RuntimeWatchScope) (files : ControlFiles) :
    List String → ControlChanges → List NormalizedPath × ControlChanges
  | [], changes => ([], changes)
  | path :: rest, changes =>
    let logical := view.logicalPath path
    match scope.policy.normalizeRelative logical with
    | none => normalizeAll view scope files rest changes
    | some relative =>
      let classified := files.classify relative changes
      let later := normalizeAll view scope files rest classified.2
      (⟨logical, relative, classified.1⟩ :: later.1, later.2)

/-- A reload that was applied reconciles the watches and owes one full sync. -/
def applyReload (view : EventView) (normalized : List NormalizedPath) (next : RuntimeWatchScope) : Loop Unit := do
  registerWatches view.reconcileErrors
  modify fun state => { state with knownDirs := view.knownDirectoryPaths, scope := next }
  oweFullSync
  acceptAll view.now ((normalized.filter NormalizedPath.isControl).map NormalizedPath.relative)

def reportReload : Option String → Loop Unit
  | some reason => notify (.syncError reason)
  | none => pure ()

/-- A control file changes the scope before any other path is handled, and it may change the links. -/
def handleControlChanges (view : EventView) (normalized : List NormalizedPath) (changes : ControlChanges) :
    Loop Bool := do
  let state ← get
  if changes.any then
    let reloaded := reloadRuntimeScope state.scope changes view.reload
    reportReload reloaded.2.2
    if reloaded.2.1 then
      applyReload view normalized reloaded.1
      return true
    else return false
  else return false

/-- A removed directory owes a full sync, and an ignored one takes its theme markers along. -/
def handleRemovedDirectory (view : EventView) (relative : String) : Loop Unit := do
  let state ← get
  if state.scope.policy.shouldWatchDir relative then
    oweFullSync
    accept view.now relative
  else if state.scope.policy.watchesForThemeMarkers relative then
    acceptAll view.now (view.themeMarkers relative)
  else pure ()

/-- A new ignored directory is watched for theme markers alone. -/
def handleMarkerDirectory (view : EventView) (path relative : String) : Loop Unit := do
  let state ← get
  let policy := state.scope.policy
  if view.disk.isDir path && !policy.shouldWatchDir relative && policy.watchesForThemeMarkers relative &&
      !view.disk.isSymlink path then
    modify fun state => { state with knownDirs := state.knownDirs ++ [relative] }
    acceptAll view.now
      (((view.disk.entries path).map (fun name => relative ++ "/" ++ name)).filter policy.mayMarkATheme)
  else pure ()

/-- A new directory that holds a link changes the links. -/
def handleNewDirectory (view : EventView) (path relative : String) : Loop Bool := do
  let state ← get
  if view.disk.isDir path && state.scope.policy.shouldWatchDir relative && !view.disk.isSymlink path then
    modify fun state => { state with knownDirs := state.knownDirs ++ view.disk.newDirs path }
    if view.disk.sawLink path then
      accept view.now relative
      return true
    else return false
  else return false

/-- A path that the index reads is accepted together with the links that alias it. -/
def handleFile (view : EventView) (path relative : String) : Loop Unit := do
  let state ← get
  let policy := state.scope.policy
  if policy.shouldHandleFile relative ||
      (policy.allowsFilePath relative && view.isMaybeDeletedSource relative) ||
      policy.mayMarkATheme relative || policy.isProjectControlFile relative ||
      state.controlPaths.mayMove relative (view.disk.isDir path) then
    acceptAll view.now (relative :: (state.links.aliasesOf relative).filter policy.shouldHandleFile)
  else pure ()

def handlePresentPath (view : EventView) (path relative : String) : Loop Bool := do
  handleMarkerDirectory view path relative
  let sawLink ← handleNewDirectory view path relative
  handleFile view path relative
  return sawLink

/-- One ordinary path, which answers whether it changed the links. -/
def handlePath (view : EventView) (removal : RemovalHint) (normalized : NormalizedPath) : Loop Bool := do
  let state ← get
  if normalized.isControl || !state.scope.enabled then return false
  else
    let topology := state.links.isTopologyEvent view.disk normalized.path normalized.relative
    (if topology then accept view.now normalized.relative else pure ())
    let hint := effectiveRemoval removal normalized.relative state.knownDirs (view.disk.isDir normalized.path)
    let removed := classifyRemovedDirectory hint normalized.relative state.knownDirs
    modify fun state => { state with knownDirs := removed.2 }
    if removed.1 then
      handleRemovedDirectory view normalized.relative
      return topology
    else
      let sawLink ← handlePresentPath view normalized.path normalized.relative
      return topology || sawLink

def handlePaths (view : EventView) (removal : RemovalHint) : List NormalizedPath → Loop Bool
  | [] => return false
  | normalized :: rest => do
      let first ← handlePath view removal normalized
      let later ← handlePaths view removal rest
      return first || later

/-- A changed link topology re-registers every link-reached watch and owes one full sync. -/
def handleTopology (view : EventView) (linkTopologyChanged : Bool) : Loop Unit := do
  let state ← get
  if linkTopologyChanged && state.scope.enabled then
    registerWatches view.relinkErrors
    modify fun state =>
      { state with
        knownDirs := state.knownDirs.filter (fun dir => dir ∉ state.links.watchedDirs) ++ view.nextLinks.watchedDirs
        links := view.nextLinks }
    oweFullSync
  else pure ()

def handleRescan (view : EventView) (rescan : Bool) : Loop Unit := do
  let state ← get
  if rescan && state.scope.enabled then
    oweFullSync
    beginLostEventRecovery view.now state.scope.debounce
      "the OS watcher reported dropped events or a change without a path"
  else pure ()

/-- A recovery keeps its own cadence, and any other burst resets the timer. -/
def rearmDebounce (view : EventView) : Loop Unit := do
  let state ← get
  if state.pending ≠ [] ∧ state.degraded.recovering = false then
    modify fun state => { state with deadline := some (view.now + state.scope.debounce) }
  else pure ()

/-- Control files come before the paths of a batch, and the answer is whether the links changed. -/
def handleBatch (batch : WatchEventBatch) (view : EventView) : Loop Bool := do
  let state ← get
  let found := normalizeAll view state.scope state.controlFiles batch.paths .none
  let reloaded ← handleControlChanges view found.1 found.2
  let changed ← handlePaths view batch.removal found.1
  return reloaded || changed

def handleEvent (batch : WatchEventBatch) (view : EventView) : Loop Unit := do
  let changed ← handleBatch batch view
  handleTopology view changed
  handleRescan view batch.rescan
  rearmDebounce view

structure SyncFailure where
  text : String
  leaseTimedOut : Bool
  deriving DecidableEq

def containsText (word text : String) : Bool :=
  text.toList.tails.any fun rest => word.toList.isPrefixOf rest

/-- Another writer holds the index when the failure says so or its lease timed out. -/
def isLockContention (failure : SyncFailure) : Bool :=
  failure.leaseTimedOut || containsText "locked" failure.text.toLower || containsText "busy" failure.text.toLower

inductive SyncAttempt where
  | done (controlPaths : Option RecordedInputs)
  | degraded (reason : String)
  | error (reason : String)
  deriving DecidableEq

def maxBackoff : Nat := 30000

def nextBackoff (previous : Nat) : Nat := min ((if previous = 0 then 1 else previous) * 2) maxBackoff

theorem nextBackoff_positive (previous : Nat) : 0 < nextBackoff previous := by
  unfold nextBackoff maxBackoff
  split <;> omega

/-- Contention is retried until its budget is spent, and any other failure is surfaced at once. -/
def runWithBackoff (budget : Nat) (run : Nat → Except SyncFailure (Option RecordedInputs))
    (tries backoff slept : Nat) : SyncAttempt :=
  match run tries with
  | .ok controlPaths => .done controlPaths
  | .error failure =>
    if !isLockContention failure then .error ("sync failed: " ++ failure.text)
    else if budget ≤ slept then
      .degraded ("sync write-lock contention exceeded 30s budget: " ++ failure.text)
    else runWithBackoff budget run (tries + 1) (nextBackoff backoff) (slept + nextBackoff backoff)
  termination_by budget - slept
  decreasing_by
    have positive := nextBackoff_positive backoff
    omega

def maxConsecutiveSyncErrors : Nat := 5

def scopedSyncMaxPending : Nat := 500

inductive PersistentFailure where
  | surface
  | degrade (reason : String)
  | disable (reason : String)
  deriving DecidableEq

/-- A success resets the counter, an error counts, and contention does neither. -/
def classifyPersistentFailure (attempt : SyncAttempt) (consecutiveErrors : Nat) : PersistentFailure × Nat :=
  match attempt with
  | .done _ => (.surface, 0)
  | .degraded reason => (.degrade reason, consecutiveErrors)
  | .error reason =>
    if maxConsecutiveSyncErrors ≤ consecutiveErrors + 1 then
      (.disable ("auto-sync disabled after 5 consecutive failures (" ++ reason ++
        "); run `codegraph sync` to reindex once the cause is fixed"), consecutiveErrors + 1)
    else (.surface, consecutiveErrors + 1)

def syncRetryDelay (debounce consecutiveErrors : Nat) : Nat :=
  min (debounce * 2 ^ min (consecutiveErrors - 1) 16) maxBackoff

/-- What the loop sees when it wakes without a message. -/
structure TickView where
  now : Nat
  finishedAt : Nat
  drift : Except String (Option String)
  rewatchFailure : Option NotifyError
  sync : List String → Nat → Except SyncFailure (Option RecordedInputs)
  fullSync : Nat → Except SyncFailure (Option RecordedInputs)

/-- A backend that lost events may have dropped its root watch as well. -/
def rewatchRoot (projectRoot : String) : Option NotifyError → Loop Unit
  | some error =>
    notify (.syncError ("re-watching " ++ projectRoot ++ " after drift failed: " ++ error.text))
  | none => pure ()

/-- An idle watcher asks whether the disk holds changes that no event reported. -/
def sentinelTick (config : WatchConfig) (view : TickView) : Loop Unit := do
  modify fun state => { state with sentinelDue := config.driftSentinel.map (view.now + ·) }
  let state ← get
  if state.degraded.recovering || !state.scope.enabled then pure ()
  else
    match view.drift with
    | .ok (some detail) =>
      rewatchRoot config.projectRoot view.rewatchFailure
      oweFullSync
      beginLostEventRecovery view.now 0 ("the drift sentinel found " ++ detail)
    | .ok none => pure ()
    | .error text =>
      (if !state.driftErrorReported then notify (.syncError ("watch drift check failed: " ++ text)) else pure ())
      modify fun state => { state with driftErrorReported := true }

/-- A committed full sync ends a recovery. -/
def finishAttempt (paths : List String) (fullSync : Bool) (controlPaths : Option RecordedInputs) : Loop Unit := do
  modify fun state =>
    { state with
      degraded := if fullSync then state.degraded.recover else state.degraded
      controlPaths := controlPaths.getD state.controlPaths }
  notify (.syncComplete paths)

/-- A failed batch stays pending together with any full sync it owed. -/
def restoreBatch (view : TickView) (batch : List (String × PendingInfo)) (fullSync : Bool) (reason : String) :
    Loop Unit := do
  notify (.syncError reason)
  modify fun state =>
    { state with
      pending := batch
      fullSyncPending := state.fullSyncPending || fullSync
      deadline := some (view.finishedAt + syncRetryDelay state.scope.debounce state.consecutiveSyncErrors) }

/-- Contention past its budget pauses the watcher until a full sync commits. -/
def pauseForContention (config : WatchConfig) (view : TickView) (batch : List (String × PendingInfo))
    (reason : String) : Loop Unit := do
  let state ← get
  (if !state.degraded.recovering then
    notify (.syncError ("auto-sync paused: " ++ reason ++ "; retrying a full reconcile every " ++
      toString (config.lockRecoveryInterval / 1000) ++ "s"))
  else pure ())
  modify fun state =>
    { state with
      degraded := state.degraded.markRecovering reason
      pending := batch
      fullSyncPending := true
      deadline := some (view.finishedAt + config.lockRecoveryInterval) }

/-- Persistent failures stop the watcher, also while it was recovering. -/
def disableSync (reason : String) : Loop Unit := do
  modify fun state =>
    if !state.degraded.degraded || state.degraded.recovering then
      { state with degraded := state.degraded.mark reason, notices := .degraded reason :: state.notices }
    else state
  throw .syncDisabled

/-- A done attempt reports itself, and a failed one keeps its batch. -/
def reportAttempt (view : TickView) (batch : List (String × PendingInfo)) (fullSync : Bool) :
    SyncAttempt → Loop Unit
  | .done controlPaths => finishAttempt (batch.map Prod.fst) fullSync controlPaths
  | .error reason => restoreBatch view batch fullSync reason
  | .degraded _ => pure ()

def applyDecision (config : WatchConfig) (view : TickView) (batch : List (String × PendingInfo)) :
    PersistentFailure → Loop Unit
  | .surface => pure ()
  | .degrade reason => pauseForContention config view batch reason
  | .disable reason => disableSync reason

def settleAttempt (config : WatchConfig) (view : TickView) (batch : List (String × PendingInfo))
    (fullSync : Bool) (attempt : SyncAttempt) : Loop Unit := do
  let state ← get
  let decided := classifyPersistentFailure attempt state.consecutiveSyncErrors
  modify fun state => { state with consecutiveSyncErrors := decided.2 }
  reportAttempt view batch fullSync attempt
  applyDecision config view batch decided.1

def SyncAttempt.isDone : SyncAttempt → Bool
  | .done _ => true
  | _ => false

def LoopState.isBurst (state : LoopState) : Bool := scopedSyncMaxPending < state.pending.length

/-- The batch of a state is synced whole when a full sync is owed or the batch is a burst. -/
def LoopState.syncsWhole (state : LoopState) : Bool := state.fullSyncPending || state.isBurst

def LoopState.attempt (config : WatchConfig) (view : TickView) (state : LoopState) : SyncAttempt :=
  let run := if state.syncsWhole then view.fullSync else view.sync (state.pending.map Prod.fst)
  runWithBackoff config.lockContentionBudget run 0 0 0

/-- The pending batch is taken for the attempt, and a burst past the ceiling reports a recovery. -/
def LoopState.takeBatch (config : WatchConfig) (view : TickView) (done : Bool) (state : LoopState) : LoopState :=
  { state with
    pending := []
    deadline := none
    sentinelDue := config.driftSentinel.map (view.now + ·)
    fullSyncPending := false
    degraded :=
      if state.isBurst && !state.degraded.recovering then
        state.degraded.markRecovering
          ("events may have been lost: " ++ toString state.pending.length ++ " paths changed at once")
      else state.degraded
    journal := .attempted (state.pending.map Prod.fst) state.syncsWhole done :: state.journal }

def attemptSync (config : WatchConfig) (view : TickView) : Loop Unit := do
  let state ← get
  modify (.takeBatch config view (state.attempt config view).isDone)
  settleAttempt config view state.pending state.syncsWhole (state.attempt config view)

inductive LoopMessage where
  | event (batch : WatchEventBatch) (view : EventView)
  | watchError (error : NotifyError)
  | snapshot
  | stop
  | timeout (view : TickView)

/-- A timeout needs a deadline or a sentinel to wake for. -/
def step (config : WatchConfig) : LoopMessage → Loop Unit
  | .event batch view => handleEvent batch view
  | .watchError error => registerWatches [error]
  | .snapshot => pure ()
  | .stop => throw .stopped
  | .timeout view => do
      let state ← get
      if state.deadline.isSome then attemptSync config view
      else if state.sentinelDue.isSome then sentinelTick config view
      else pure ()

/-- The loop runs until a message ends it. -/
def eventLoop (config : WatchConfig) : List LoopMessage → LoopState → Option LoopEnd × LoopState
  | [], state => (none, state)
  | message :: rest, state =>
    match Program.exec (step config message) state with
    | (.ok (), reached) => eventLoop config rest reached
    | (.error ended, reached) => (some ended, reached)

/-- One watch that the start registers, with the backend's answer. -/
structure Registration where
  dir : String
  failure : Option NotifyError
  deriving DecidableEq

/-- A failed root watch ends the start, and an exhausted file table only degrades it. -/
def register (projectRoot : String) (state : LoopState) (registration : Registration) :
    Except NotifyError LoopState :=
  match registration.failure with
  | none => .ok state
  | some error =>
    match classifyNotifyError error with
    | .degrade =>
      let reason := "watch " ++ registration.dir ++ " failed: " ++ error.text
      if state.degraded.degraded then .ok state
      else .ok { state with
        degraded := state.degraded.mark reason
        notices := .degraded reason :: state.notices }
    | .warn =>
      .ok { state with
        notices := .syncError ("watch " ++ registration.dir ++ " warning: " ++ error.text) :: state.notices }
    | .other => if registration.dir = projectRoot then .error error else .ok state

/-- A started watcher has nothing pending and owes nothing. -/
def initialLoop (controlFiles : ControlFiles) (scope : RuntimeWatchScope) (knownDirs : List String)
    (links : LinkState) (controlPaths : RecordedInputs) (sentinelDue : Option Nat) : LoopState :=
  ⟨controlFiles, scope, knownDirs, links, controlPaths, [], none, 0, false, sentinelDue, false,
    .initial, [], []⟩

def registerAll (projectRoot : String) (initial : LoopState) (registrations : List Registration) :
    Except NotifyError LoopState :=
  registrations.foldlM (register projectRoot) initial

/-- The first watch that failed for no known cause, below the root. -/
def partialFailure (registrations : List Registration) : Option NotifyError :=
  (registrations.filterMap Registration.failure).find? fun error => classifyNotifyError error = .other

def warnPartial (registrations : List Registration) (state : LoopState) : LoopState :=
  match partialFailure registrations with
  | some error =>
    { state with notices := .syncError ("watch (partial) warning: " ++ error.text) :: state.notices }
  | none => state

def start (projectRoot : String) (initial : LoopState) (registrations : List Registration) :
    Except NotifyError LoopState :=
  (registerAll projectRoot initial registrations).map (warnPartial registrations)

end Codegraph.Watch
