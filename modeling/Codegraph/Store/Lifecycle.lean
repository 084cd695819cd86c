import Codegraph.Store.Namespace

/- This file runs the rebuild, the uninit, the incremental sync, and the sidecar recovery of one namespace. -/

namespace Codegraph.Store
open Interruptible

inductive RebuildKind where
  | explicitInit
  | reindex
  deriving DecidableEq

inductive RebuildCheckpoint where
  | beforeWriteAuthorization
  | buildingPublished
  | beforeDatabaseRemoval
  | databaseRemoved
  | beforePragmasRestored
  | pragmasRestored
  | beforeCompaction
  | compacted
  | beforeVersionStamp
  | versionStamped
  | beforeStampCheckpoint
  | stampCheckpointed
  | beforeConnectionClose
  | connectionClosed
  | beforeCurrentPublication
  | currentPublished
  | beforeTombstoneRemoval
  | afterTombstoneRemoval
  deriving DecidableEq

/-- The caller may also give up its rebuild before it opens, fills, or finishes the database. -/
inductive RebuildStage where
  | begun
  | opened
  | indexed
  deriving DecidableEq

inductive UninitCheckpoint where
  | beforeAuthorization
  | statePublished
  | tombstoneEnsured
  | daemonDrained
  | databaseRemoved
  | walRemoved
  | shmRemoved
  | childRemoved (child : RuntimeChild)
  deriving DecidableEq

/-- A fault returns an error and runs the handle's drop, and a kill does neither. -/
inductive Interruption where
  | fault
  | kill
  deriving DecidableEq

inductive SyncEnding where
  | finished
  | failed
  | killed
  deriving DecidableEq

structure Sidecars where
  wal : Option Nat
  shm : Bool
  deriving DecidableEq

def Sidecars.none : Sidecars := ⟨Option.none, false⟩

/-- The environment of one operation chooses its interruptions and the sidecars that SQLite leaves. -/
structure LifecycleFault where
  available : Bool
  rootCreated : Bool
  publication : StatePhase → PublishFault
  rebuild : RebuildCheckpoint → Option Interruption
  stage : RebuildStage → Option Interruption
  uninit : UninitCheckpoint → Bool
  drain : Except String Unit
  sync : SyncEnding
  recoveryKilled : Bool
  writing : Sidecars
  closing : Sidecars

def LifecycleFault.none : LifecycleFault where
  available := true
  rootCreated := false
  publication _ := .none
  rebuild _ := Option.none
  stage _ := Option.none
  uninit _ := false
  drain := .ok ()
  sync := .finished
  recoveryKilled := false
  writing := ⟨some 4096, true⟩
  closing := .none

/-- Without a fault SQLite still chooses the sidecars of a writer, and closing it leaves no log with bytes. -/
structure Settling where
  writing : Sidecars
  closing : Sidecars
  folded : ∀ bytes, closing.wal = some bytes → bytes = 0

def Settling.fault (settling : Settling) : LifecycleFault :=
  { LifecycleFault.none with writing := settling.writing, closing := settling.closing }

inductive LifecycleError where
  | killed
  | store (error : StoreError)
  | publish (error : StatePublishError)
  | uninitializedRequiresExplicitInit (path : String)
  | tombstoneRequiresExplicitInit (path : String)
  | rebuildInterrupted (checkpoint : RebuildCheckpoint)
  | rebuildAbandoned (stage : RebuildStage)
  | uninitRejected (status : ExtractionStatus)
  | uninitInterrupted (checkpoint : UninitCheckpoint)
  | daemonNotDrained (detail : String)
  | unsupportedChild (child : RuntimeChild)
  | syncFailed
  | awaitsExplicitInit (path : String)
  deriving DecidableEq

abbrev Lifecycle (α : Type) := Program LifecycleError Namespace α

def heldLease (paths : IndexPaths) : IndexLease :=
  ⟨.exclusive, paths.currentRoot, paths.permanentLock, true⟩

def liftStore {α : Type} (result : Except StoreError α) : Lifecycle α :=
  .lift (result.mapError .store)

/-- A publication moves only the slot files of the namespace. -/
def publishPhase (codec : Codec) (paths : IndexPaths) (fault : LifecycleFault) (phase : StatePhase) :
    Lifecycle PublishedState :=
  Program.focus Namespace.files (fun files state => { state with files := files }) LifecycleError.publish
    (publishIndexStateWith codec paths (heldLease paths) phase (fault.publication phase))

def rebuildCheckpoint (fault : LifecycleFault) (point : RebuildCheckpoint) : Lifecycle Unit :=
  match fault.rebuild point with
  | none => pure ()
  | some .fault => throw (.rebuildInterrupted point)
  | some .kill => throw .killed

def rebuildStage (fault : LifecycleFault) (stage : RebuildStage) : Lifecycle Unit :=
  match fault.stage stage with
  | none => pure ()
  | some .fault => throw (.rebuildAbandoned stage)
  | some .kill => throw .killed

/-- An absent root is created before its lock, and an existing root must already have one. -/
def acquireOrCreateExclusive (paths : IndexPaths) (fault : LifecycleFault) : Lifecycle Unit := do
  match (← get).root with
  | .locked =>
    if fault.available then pure () else throw (.store (.leaseTimedOut paths.permanentLock))
  | .lockless => throw (.store (.lockNotFound paths.permanentLock))
  | .absent =>
    if fault.available then
      modify fun state => { state with root := .lockless }
      if fault.rootCreated then throw .killed
      else modify fun state => { state with root := .locked }
    else throw (.store (.leaseTimedOut paths.permanentLock))

/-- A rebuild also takes over a lockless root that has no state. -/
def acquireOuterExclusive (codec : Codec) (paths : IndexPaths) (fault : LifecycleFault) :
    Lifecycle Unit := do
  let state ← get
  if state.root = .lockless ∧ state.status codec paths = .missing then
    if fault.available then modify fun state => { state with root := .locked }
    else throw (.store (.leaseTimedOut paths.permanentLock))
  else acquireOrCreateExclusive paths fault

def SlotOutcome.ownerMismatched : SlotOutcome → Bool
  | .invalid (.ownerMismatch _ _ _ _) => true
  | _ => false

def ExtractionStatus.ownerMismatched : ExtractionStatus → Bool
  | .corrupt (.ownerMismatch _ _ _ _) => true
  | _ => false

def SlotOutcome.isAbsent : SlotOutcome → Bool
  | .absent => true
  | _ => false

/-- A copied project keeps only slots of another owner, and an explicit init removes them. -/
def removeOwnerMismatchedStateSlots (codec : Codec) (paths : IndexPaths) (files : SlotFiles) : SlotFiles :=
  let outcome := slotOutcome codec paths files.slots
  let removable (index : Fin 2) := (outcome index).isAbsent || (outcome index).ownerMismatched
  if (classify codec paths files.slots).status.ownerMismatched && removable 0 && removable 1 then
    { files with slots := fun index =>
        if (outcome index).ownerMismatched then none else files.slots index }
  else files

def normalizeOwner (codec : Codec) (paths : IndexPaths) (kind : RebuildKind) : Lifecycle Unit :=
  if kind = .explicitInit then
    modify fun state => { state with files := removeOwnerMismatchedStateSlots codec paths state.files }
  else pure ()

def refuseTombstonedNamespace (paths : IndexPaths) : Lifecycle Unit := do
  if (← get).tombstone then throw (.tombstoneRequiresExplicitInit paths.currentRoot) else pure ()

/-- The authorization keeps the status that the gate accepted. -/
def authorizeRebuild (codec : Codec) (paths : IndexPaths) (kind : RebuildKind) :
    Lifecycle StoreWriteAuthorization := do
  match ← liftStore (openForWriteWithOptions codec paths (heldLease paths) (← get) .fullRebuild
      (kind = .explicitInit) (kind = .explicitInit)) with
  | .fullRebuildRequired authorization => return authorization
  | _ => throw (.awaitsExplicitInit paths.currentRoot)

/-- Only an explicit init rebuilds an uninitialized or a tombstoned namespace. -/
def requireExplicitInit (paths : IndexPaths) (kind : RebuildKind)
    (authorization : StoreWriteAuthorization) : Lifecycle Unit :=
  if kind = .explicitInit then pure ()
  else if authorization.status = .uninitialized then
    throw (.uninitializedRequiresExplicitInit paths.currentRoot)
  else refuseTombstonedNamespace paths

def removeDatabaseFiles : Lifecycle Unit :=
  modify fun state =>
    { state with database := none, wal := none, shm := false, removals := state.removals + 1 }

/-- The building phase is published before any database file is removed. -/
def beginFromAuthorization (codec : Codec) (paths : IndexPaths) (fault : LifecycleFault) :
    Lifecycle Unit := do
  let _ ← publishPhase codec paths fault .building
  rebuildCheckpoint fault .buildingPublished
  rebuildCheckpoint fault .beforeDatabaseRemoval
  removeDatabaseFiles
  rebuildCheckpoint fault .databaseRemoved

def beginFullRebuildWith (codec : Codec) (paths : IndexPaths) (fault : LifecycleFault)
    (kind : RebuildKind) : Lifecycle Unit := do
  acquireOuterExclusive codec paths fault
  rebuildCheckpoint fault .beforeWriteAuthorization
  normalizeOwner codec paths kind
  let authorization ← authorizeRebuild codec paths kind
  requireExplicitInit paths kind authorization
  beginFromAuthorization codec paths fault

/-- The escalation of a sync reuses its authorization and never rebuilds an uninitialized namespace. -/
def resumeFullRebuildWith (codec : Codec) (paths : IndexPaths) (fault : LifecycleFault)
    (authorization : StoreWriteAuthorization) : Lifecycle Unit :=
  let rejected := .store (.writePurposeRejected authorization.purpose authorization.status)
  if authorization.purpose ≠ .incrementalSync then throw rejected
  else
    match authorization.status with
    | .missing | .outdated _ | .building _ => do
        refuseTombstonedNamespace paths
        beginFromAuthorization codec paths fault
    | _ => throw rejected

def setSidecars (sidecars : Sidecars) (state : Namespace) : Namespace :=
  { state with wal := sidecars.wal, shm := sidecars.shm }

/-- Restoring the pragmas truncates the log. -/
def Database.restoreDefaultPragmas (database : Database) : Database :=
  { database.fold with finalization := { database.finalization with pragmasRestored := true } }

def Database.compact (database : Database) : Database :=
  { database.fold with finalization := { database.finalization with compacted := true } }

/-- The stamp is written to the log first. -/
def Database.stampExtractionVersion (database : Database) : Database :=
  { database with
    logStamp := some (toString currentExtractionVersion.toNat)
    finalization := { database.finalization with stamped := true } }

def Database.checkpointWalTruncate (database : Database) : Database :=
  { database.fold with finalization := { database.finalization with stampCheckpointed := true } }

def Database.close (database : Database) : Database :=
  { database.fold with finalization := { database.finalization with closed := true } }

def finalizeDatabase (step : Database → Database) : Lifecycle Unit :=
  modify fun state => { state with database := state.database.map step }

def openStore (fault : LifecycleFault) : Lifecycle Unit := do
  rebuildStage fault .begun
  modify fun state =>
    setSidecars fault.writing { state with database := some (.fresh state.removals) }

/-- The emergency cleanup folds the log and closes the writer, and it publishes nothing. -/
def emergencyCleanup (fault : LifecycleFault) (error : LifecycleError) (state : Namespace) : Namespace :=
  if error = .killed then state
  else setSidecars fault.closing { state with database := state.database.map .fold }

def finishOpenDatabase (fault : LifecycleFault) : Lifecycle Unit := do
  rebuildStage fault .opened
  rebuildStage fault .indexed
  rebuildCheckpoint fault .beforePragmasRestored
  finalizeDatabase .restoreDefaultPragmas
  rebuildCheckpoint fault .pragmasRestored
  rebuildCheckpoint fault .beforeCompaction
  finalizeDatabase .compact
  rebuildCheckpoint fault .compacted
  rebuildCheckpoint fault .beforeVersionStamp
  finalizeDatabase .stampExtractionVersion
  rebuildCheckpoint fault .versionStamped
  rebuildCheckpoint fault .beforeStampCheckpoint
  finalizeDatabase .checkpointWalTruncate
  rebuildCheckpoint fault .stampCheckpointed
  rebuildCheckpoint fault .beforeConnectionClose

def removeTombstone (fault : LifecycleFault) (kind : RebuildKind) : Lifecycle Unit :=
  if kind = .explicitInit then do
    rebuildCheckpoint fault .beforeTombstoneRemoval
    modify fun state => { state with tombstone := false }
  else pure ()

/-- The current phase is published after the last connection closed, and then an init removes the tombstone. -/
def finishClosedDatabase (codec : Codec) (paths : IndexPaths) (fault : LifecycleFault)
    (kind : RebuildKind) : Lifecycle Unit := do
  finalizeDatabase .close
  modify (setSidecars fault.closing)
  rebuildCheckpoint fault .connectionClosed
  rebuildCheckpoint fault .beforeCurrentPublication
  let _ ← publishPhase codec paths fault .current
  rebuildCheckpoint fault .currentPublished
  removeTombstone fault kind
  rebuildCheckpoint fault .afterTombstoneRemoval

/-- An error while the writer is open runs the emergency cleanup. -/
def completeRebuild (codec : Codec) (paths : IndexPaths) (fault : LifecycleFault)
    (kind : RebuildKind) : Lifecycle Unit := do
  openStore fault
  .onError (finishOpenDatabase fault) (emergencyCleanup fault)
  finishClosedDatabase codec paths fault kind

def fullRebuild (codec : Codec) (paths : IndexPaths) (fault : LifecycleFault) (kind : RebuildKind) :
    Lifecycle Unit := do
  beginFullRebuildWith codec paths fault kind
  completeRebuild codec paths fault kind

def uninitCheckpoint (fault : LifecycleFault) (point : UninitCheckpoint) : Lifecycle Unit :=
  if fault.uninit point then throw (.uninitInterrupted point) else pure ()

/-- A directory is never removed, and a missing child is no error. -/
def removeChild (child : RuntimeChild) : Lifecycle Unit := do
  if (← get).children child = .directory then throw (.unsupportedChild child)
  else modify fun state => { state with children := Function.update state.children child .absent }

def removeChildren (fault : LifecycleFault) : List RuntimeChild → Lifecycle Unit
  | [] => pure ()
  | child :: rest => do
      removeChild child
      uninitCheckpoint fault (.childRemoved child)
      removeChildren fault rest

/-- The statuses that an uninit may start from or continue. -/
def ExtractionStatus.uninitable : ExtractionStatus → Bool
  | .current | .building _ | .uninitialized | .outdated _ => true
  | _ => false

def acquireExclusiveExisting (paths : IndexPaths) (fault : LifecycleFault) : Lifecycle Unit := do
  if (← get).root ≠ .locked then throw (.store (.lockNotFound paths.permanentLock))
  else if fault.available then pure ()
  else throw (.store (.leaseTimedOut paths.permanentLock))

def requireUninitable (status : ExtractionStatus) : Lifecycle Unit :=
  if status.uninitable then pure () else throw (.uninitRejected status)

def requireUninitAuthorization (authorization : StoreWriteAuthorization) : Lifecycle Unit :=
  if authorization.purpose = .uninitContinuation ∧ authorization.status.uninitable = true then pure ()
  else throw (.uninitRejected authorization.status)

def authorizeUninit (codec : Codec) (paths : IndexPaths) : Lifecycle StoreWriteAuthorization := do
  match ← liftStore (openForWrite codec paths (heldLease paths) (← get) .uninitContinuation) with
  | .uninitContinuation authorization => return authorization
  | _ => throw (.awaitsExplicitInit paths.currentRoot)

/-- The database and the runtime children go only after both durable markers are in place. -/
def removeIndex (fault : LifecycleFault) : Lifecycle Unit := do
  modify fun state => { state with database := none }
  uninitCheckpoint fault .databaseRemoved
  modify fun state => { state with wal := none }
  uninitCheckpoint fault .walRemoved
  modify fun state => { state with shm := false }
  uninitCheckpoint fault .shmRemoved
  removeChildren fault RuntimeChild.all

def uninitIndexWith (codec : Codec) (paths : IndexPaths) (fault : LifecycleFault) : Lifecycle Unit := do
  requireUninitable ((← get).status codec paths)
  acquireExclusiveExisting paths fault
  uninitCheckpoint fault .beforeAuthorization
  let authorization ← authorizeUninit codec paths
  requireUninitAuthorization authorization
  let _ ← publishPhase codec paths fault .uninitialized
  uninitCheckpoint fault .statePublished
  modify fun state => { state with tombstone := true }
  uninitCheckpoint fault .tombstoneEnsured
  .lift (fault.drain.mapError .daemonNotDrained)
  uninitCheckpoint fault .daemonDrained
  removeIndex fault

/-- A sync of a current namespace keeps its stamp, and its end decides which sidecars remain. -/
def mutateCurrent (fault : LifecycleFault) : Lifecycle Unit := do
  modify (setSidecars fault.writing)
  match fault.sync with
  | .killed => throw .killed
  | .failed =>
    modify (setSidecars fault.closing)
    throw .syncFailed
  | .finished => modify (setSidecars fault.closing)

def incrementalSync (codec : Codec) (paths : IndexPaths) (fault : LifecycleFault) : Lifecycle Unit := do
  acquireOrCreateExclusive paths fault
  match ← liftStore (openForWrite codec paths (heldLease paths) (← get) .incrementalSync) with
  | .current => mutateCurrent fault
  | .fullRebuildRequired authorization =>
    resumeFullRebuildWith codec paths fault authorization
    completeRebuild codec paths fault .reindex
  | .uninitContinuation _ => throw (.awaitsExplicitInit paths.currentRoot)

/-- A log that still has bytes is refused, and an emptied pair is removed. -/
def removeCheckpointedSidecars (paths : IndexPaths) : Lifecycle Unit := do
  match (← get).wal with
  | some (remaining + 1) =>
    throw (.store (.walNotFolded (databaseSidecarPath paths.currentDb "-wal") (remaining + 1)))
  | _ => modify (setSidecars .none)

/-- A recovery touches only a current namespace that has a sidecar and no tombstone. -/
def recoverable (codec : Codec) (paths : IndexPaths) (state : Namespace) : Bool :=
  state.status codec paths = .current && !state.tombstone &&
    (firstExistingDatabaseSidecar paths state).isSome

def foldSidecars (paths : IndexPaths) (fault : LifecycleFault) : Lifecycle Bool := do
  modify (setSidecars fault.writing)
  if fault.recoveryKilled then throw .killed
  else
    modify fun state =>
      setSidecars fault.closing { state with database := state.database.map .fold }
    removeCheckpointedSidecars paths
    return true

def recoverStaleCurrentSidecars (codec : Codec) (paths : IndexPaths) (fault : LifecycleFault) :
    Lifecycle Bool := do
  let state ← get
  if recoverable codec paths state = false then return false
  else if state.root ≠ .locked then throw (.store (.lockNotFound paths.permanentLock))
  else if fault.available = false then return false
  else
    match ← liftStore (openForWrite codec paths (heldLease paths) state .staleSidecarRecovery) with
    | .current => foldSidecars paths fault
    | _ => throw (.awaitsExplicitInit paths.currentRoot)

/-- A daemon or its user puts a child into the root, or takes it away. -/
def placeChild (child : RuntimeChild) (placed : ChildFile) : Lifecycle Unit :=
  modify fun state =>
    if state.root = .absent then state
    else { state with children := Function.update state.children child placed }

/-- One operation of the namespace, with its own environment. Children come and go at any time between two of them. -/
inductive Operation where
  | rebuild (kind : RebuildKind) (fault : LifecycleFault)
  | uninit (fault : LifecycleFault)
  | sync (fault : LifecycleFault)
  | recover (fault : LifecycleFault)
  | place (child : RuntimeChild) (placed : ChildFile)

def Operation.program (codec : Codec) (paths : IndexPaths) : Operation → Lifecycle Unit
  | .rebuild kind fault => fullRebuild codec paths fault kind
  | .uninit fault => uninitIndexWith codec paths fault
  | .sync fault => incrementalSync codec paths fault
  | .recover fault => do
      let _ ← recoverStaleCurrentSidecars codec paths fault
  | .place child placed => placeChild child placed

def Operation.exec (operation : Operation) (codec : Codec) (paths : IndexPaths) (state : Namespace) :
    Namespace :=
  (Program.exec (operation.program codec paths) state).2

def operateAll (codec : Codec) (paths : IndexPaths) (operations : List Operation) (state : Namespace) :
    Namespace :=
  operations.foldl (fun reached operation => operation.exec codec paths reached) state

end Codegraph.Store
