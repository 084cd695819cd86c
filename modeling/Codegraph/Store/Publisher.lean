import Codegraph.Library.Interruptible
import Codegraph.Store.Slot

/- This file publishes one phase to the inactive slot through a temporary file and a rename. -/

namespace Codegraph.Store
open Interruptible

inductive LeaseMode where
  | shared
  | exclusive
  deriving DecidableEq

/-- A lease names its database parent and the permanent lock file that it holds. -/
structure IndexLease where
  mode : LeaseMode
  dbParent : String
  lockPath : String
  namesLock : Bool
  deriving DecidableEq

inductive IndexLeaseValidationError where
  | sharedLease
  | wrongDbParent
  | permanentLockChanged (path : String)
  deriving DecidableEq

def IndexPaths.permanentLock (paths : IndexPaths) : String := paths.currentRoot ++ "/index.lock"

/-- Only an exclusive lease on the lock of this very namespace authorizes a writer. -/
def IndexLease.validateExclusive (lease : IndexLease) (paths : IndexPaths) :
    Except IndexLeaseValidationError Unit :=
  if lease.mode ≠ .exclusive then .error .sharedLease
  else if lease.dbParent ≠ paths.currentRoot then .error .wrongDbParent
  else if lease.lockPath ≠ paths.permanentLock ∨ lease.namesLock = false then
    .error (.permanentLockChanged paths.permanentLock)
  else .ok ()

inductive ParentSyncStatus where
  | synced
  | unsupported
  deriving DecidableEq

structure PublishedState where
  slot : Fin 2
  record : StateSlotRecord
  parentSync : ParentSyncStatus
  deriving DecidableEq

inductive StatePublishOperation where
  | createTemp
  | writeTemp
  | flushTemp
  | syncTemp
  | prepareInactiveSlot
  | renameTemp
  | syncParent
  deriving DecidableEq

inductive PublishCheckpoint where
  | tempCreated
  | tempWritten
  | tempFlushed
  | tempSynced
  | inactiveSlotPrepared
  | tempRenamed
  | parentSyncAttempted
  deriving DecidableEq

/-- The rename has landed from this checkpoint on. -/
def PublishCheckpoint.afterRename : PublishCheckpoint → Bool
  | .tempRenamed | .parentSyncAttempted => true
  | _ => false

inductive StatePublishError where
  | lease (error : IndexLeaseValidationError)
  | refused (status : ExtractionStatus)
  | invalidTransition (current : ExtractionStatus) (requested : StatePhase)
  | classifierInvariant (detail : String)
  | serialize (detail : String)
  | tempNameExhausted (parent : String) (attempts : Nat)
  | io (operation : StatePublishOperation) (path : String) (checkpoint : PublishCheckpoint)
  deriving DecidableEq

def tempCreateAttempts : Nat := 64

/-- The environment of one call chooses where it is cut, which names are taken, and the barrier's answer. -/
structure PublishFault where
  cut : PublishCheckpoint → Bool
  taken : Nat → Bool
  parentSync : ParentSyncStatus

def PublishFault.none : PublishFault := ⟨fun _ => false, fun _ => false, .synced⟩

/-- The namespace holds two fixed slots and the publisher's temporary files, newest first.
The field `published` lists the phases whose rename landed, and no operation reads it. -/
structure SlotFiles where
  slots : Fin 2 → Option SlotEntry
  temps : List ByteArray
  published : List StatePhase

def SlotFiles.empty : SlotFiles := ⟨fun _ => none, [], []⟩

def validateTransition (current : ExtractionStatus) (requested : StatePhase) :
    Except StatePublishError Unit :=
  match current, requested with
  | .missing, .building => .ok ()
  | .outdated _, .building | .outdated _, .uninitialized => .ok ()
  | .uninitialized, .building | .uninitialized, .uninitialized => .ok ()
  | .current, .building | .current, .uninitialized => .ok ()
  | .building _, _ => .ok ()
  | _, _ => .error (.invalidTransition current requested)

/-- A missing namespace starts at sequence zero in slot zero, and a successor takes the other slot. -/
def successorSlot (classification : IndexStateClassification) :
    Except StatePublishError (UInt64 × Fin 2) :=
  match classification.status with
  | .missing =>
    match classification.authoritative with
    | some _ => .error (.classifierInvariant "Missing classification selected an authoritative slot")
    | none => .ok (0, 0)
  | .future _ | .corrupt _ => .error (.refused classification.status)
  | _ =>
    match classification.authoritative with
    | none =>
      .error (.classifierInvariant "non-Missing publishable classification has no authority")
    | some authority =>
      if authority.record.sequence = maxSequence then
        .error (.refused (.corrupt (.sequenceExhausted authority.record.sequence)))
      else .ok (authority.record.sequence + 1, 1 - authority.index)

/-- The inactive slot must be absent or older than the successor. -/
def checkInactive (outcome : SlotOutcome) (sequence : UInt64) : Except StatePublishError Unit :=
  match outcome with
  | .absent => .ok ()
  | .valid record =>
    if sequence ≤ record.sequence then
      .error (.classifierInvariant "inactive slot is not older than the successor sequence")
    else .ok ()
  | _ => .error
      (.classifierInvariant "publishable classification contains a future or invalid inactive slot")

/-- A well formed wire slot of this owner, at any extraction version. -/
def versionWire (codec : Codec) (paths : IndexPaths) (version sequence : UInt64) (phase : StatePhase) :
    WireSlot where
  sequence := sequence
  storageProtocol := currentStorageProtocol
  extractionVersion := version
  phase := phase.asWire
  projectIdentity := paths.projectIdentity
  checksum := codec.checksumHex sequence currentStorageProtocol version phase.asWire paths.projectIdentity

/-- The wire form of a successor carries this binary's extraction version. -/
def successorWire (codec : Codec) (paths : IndexPaths) (sequence : UInt64) (phase : StatePhase) : WireSlot :=
  versionWire codec paths currentExtractionVersion sequence phase

structure PublicationPlan where
  target : Fin 2
  sequence : UInt64
  bytes : ByteArray

/-- Every refusal is decided before the first file is created. -/
def planPublication (codec : Codec) (paths : IndexPaths) (lease : IndexLease) (phase : StatePhase)
    (slots : Fin 2 → Option SlotEntry) : Except StatePublishError PublicationPlan := do
  match lease.validateExclusive paths with
  | .error error => throw (.lease error)
  | .ok () =>
    let classification := classify codec paths slots
    match classification.status with
    | .future _ | .corrupt _ => throw (.refused classification.status)
    | _ =>
      validateTransition classification.status phase
      let (sequence, target) ← successorSlot classification
      checkInactive (classification.slots target) sequence
      match codec.toVec (successorWire codec paths sequence phase) with
      | .error detail => throw (.serialize detail)
      | .ok bytes => return ⟨target, sequence, bytes⟩

abbrev Publish (α : Type) := Program StatePublishError SlotFiles α

def checkpoint (fault : PublishFault) (point : PublishCheckpoint)
    (operation : StatePublishOperation) (path : String) : Publish Unit :=
  if fault.cut point then throw (.io operation path point) else pure ()

/-- A new temporary file starts empty under the first name that no file has. -/
def createTemp (paths : IndexPaths) (fault : PublishFault) : Publish Unit :=
  if (List.range tempCreateAttempts).all fault.taken then
    throw (.tempNameExhausted paths.currentRoot tempCreateAttempts)
  else
    modify fun files => { files with temps := .empty :: files.temps }

def writeTemp (bytes : ByteArray) : Publish Unit :=
  modify fun files => { files with temps := bytes :: files.temps.tail }

/-- The older inactive slot is removed before the rename replaces it. -/
def removeInactive (target : Fin 2) : Publish Unit := do
  match (← get).slots target with
  | none => pure ()
  | some (.nonRegular _) | some (.unreadable _) =>
    throw (.classifierInvariant "inactive fixed slot changed after under-lease classification")
  | some (.regular _) | some (.replaced _) =>
    modify fun files => { files with slots := Function.update files.slots target none }

/-- The rename moves the newest temporary file into the target slot. -/
def renameTemp (target : Fin 2) (phase : StatePhase) : Publish Unit :=
  modify fun files =>
    match files.temps with
    | [] => files
    | bytes :: rest =>
      { slots := Function.update files.slots target (some (.regular bytes))
        temps := rest
        published := phase :: files.published }

def installPublication (codec : Codec) (paths : IndexPaths) (fault : PublishFault)
    (phase : StatePhase) (plan : PublicationPlan) : Publish PublishedState := do
  createTemp paths fault
  checkpoint fault .tempCreated .createTemp paths.currentRoot
  writeTemp plan.bytes
  checkpoint fault .tempWritten .writeTemp paths.currentRoot
  checkpoint fault .tempFlushed .flushTemp paths.currentRoot
  checkpoint fault .tempSynced .syncTemp paths.currentRoot
  removeInactive plan.target
  checkpoint fault .inactiveSlotPrepared .prepareInactiveSlot (paths.stateSlots plan.target)
  renameTemp plan.target phase
  checkpoint fault .tempRenamed .renameTemp (paths.stateSlots plan.target)
  checkpoint fault .parentSyncAttempted .syncParent paths.currentRoot
  return ⟨plan.target, (successorWire codec paths plan.sequence phase).record, fault.parentSync⟩

/-- One publication plans under the lease and then installs its successor. -/
def publishIndexStateWith (codec : Codec) (paths : IndexPaths) (lease : IndexLease)
    (phase : StatePhase) (fault : PublishFault) : Publish PublishedState := do
  match planPublication codec paths lease phase (← get).slots with
  | .error error => throw error
  | .ok plan => installPublication codec paths fault phase plan

def publishIndexState (codec : Codec) (paths : IndexPaths) (lease : IndexLease)
    (phase : StatePhase) : Publish PublishedState :=
  publishIndexStateWith codec paths lease phase .none

end Codegraph.Store
