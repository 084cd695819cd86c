import Codegraph.Store.PublicationRun

/- This file holds one project's index namespace and the gates that admit readers and writers. -/

namespace Codegraph.Store

variable {paths : IndexPaths} {allowTombstone : Bool}

open Interruptible

/-- An absent root has no files, and a lockless root lost its creator before the permanent lock. -/
inductive Root where
  | absent
  | lockless
  | locked
  deriving DecidableEq

/-- The five finalization steps that a finished rebuild has run on its database. -/
structure Finalization where
  pragmasRestored : Bool
  compacted : Bool
  stamped : Bool
  stampCheckpointed : Bool
  closed : Bool
  deriving DecidableEq

def Finalization.none : Finalization := ⟨false, false, false, false, false⟩

def Finalization.complete : Finalization := ⟨true, true, true, true, true⟩

/-- A database knows which removal it followed and where its extraction stamp lives. -/
structure Database where
  generation : Nat
  mainStamp : Option String
  logStamp : Option String
  finalization : Finalization
  deriving DecidableEq

def Database.fresh (generation : Nat) : Database := ⟨generation, none, none, .none⟩

/-- A checkpoint moves the log's stamp into the main file. -/
def Database.fold (database : Database) : Database :=
  match database.logStamp with
  | none => database
  | some stamp => { database with mainStamp := some stamp, logStamp := none }

inductive RuntimeChild where
  | configToml
  | extensionConfig
  | daemonPid
  | daemonLog
  | daemonSocket
  deriving DecidableEq

/-- The children in the order in which an uninit removes them. -/
def RuntimeChild.all : List RuntimeChild := [.configToml, .extensionConfig, .daemonPid, .daemonLog, .daemonSocket]

/-- What stands at the place of a child. A socket and a link are files here. -/
inductive ChildFile where
  | absent
  | file
  | directory
  deriving DecidableEq

/-- The field `removals` counts the rebuilds that removed the database, and no operation reads it. -/
structure Namespace where
  root : Root
  files : SlotFiles
  tombstone : Bool
  database : Option Database
  wal : Option Nat
  shm : Bool
  children : RuntimeChild → ChildFile
  removals : Nat

def Namespace.absent : Namespace :=
  ⟨.absent, .empty, false, none, none, false, fun _ => .absent, 0⟩

def Namespace.status (codec : Codec) (paths : IndexPaths) (state : Namespace) : ExtractionStatus :=
  (classify codec paths state.files.slots).status

def IndexPaths.currentDb (paths : IndexPaths) : String := paths.currentRoot ++ "/codegraph.db"

def IndexPaths.tombstone (paths : IndexPaths) : String := paths.currentRoot ++ "/uninitialized"

def databaseSidecarPath (db suffix : String) : String := db ++ suffix

inductive StoreWritePurpose where
  | currentMutation
  | fullRebuild
  | incrementalSync
  | uninitContinuation
  | staleSidecarRecovery
  deriving DecidableEq

inductive ExtractionStampIssue where
  | missing
  | malformed (found : String)
  | mismatch (expected found : Nat)
  deriving DecidableEq

inductive StoreError where
  | leaseTimedOut (path : String)
  | lockNotFound (path : String)
  | leaseValidation (error : IndexLeaseValidationError)
  | stateRejected (status : ExtractionStatus)
  | writePurposeRejected (purpose : StoreWritePurpose) (status : ExtractionStatus)
  | missingStateWithDatabase (path : String)
  | stateWithoutPermanentLock (status : ExtractionStatus) (path : String)
  | currentTombstoned (path : String)
  | currentDatabaseMissing (path : String)
  | currentWithDatabaseSidecar (path : String)
  | invalidExtractionStamp (path : String) (issue : ExtractionStampIssue)
  | walNotFolded (path : String) (remaining : Nat)
  deriving DecidableEq

/-- An unsigned decimal may start with a plus sign and must fit in sixty-four bits. -/
def parseU64 (text : String) : Option Nat :=
  let digits :=
    match text.toList with
    | '+' :: rest => rest
    | all => all
  let value := Nat.ofDigitChars 10 digits 0
  if digits ≠ [] ∧ digits.all Char.isDigit = true ∧ value < UInt64.size then some value else none

/-- A stamp is the canonical decimal text of the current extraction version. -/
def validateExtractionStamp (path : String) (stamp : Option String) : Except StoreError Unit :=
  match stamp with
  | none => .error (.invalidExtractionStamp path .missing)
  | some text =>
    match parseU64 text with
    | none => .error (.invalidExtractionStamp path (.malformed text))
    | some built =>
      if toString built ≠ text then .error (.invalidExtractionStamp path (.malformed text))
      else if built ≠ currentExtractionVersion.toNat then
        .error (.invalidExtractionStamp path (.mismatch currentExtractionVersion.toNat built))
      else .ok ()

def firstExistingDatabaseSidecar (paths : IndexPaths) (state : Namespace) : Option String :=
  if state.wal.isSome then some (databaseSidecarPath paths.currentDb "-wal")
  else if state.shm then some (databaseSidecarPath paths.currentDb "-shm")
  else none

def firstExistingDatabaseArtifact (paths : IndexPaths) (state : Namespace) : Option String :=
  if state.database.isSome then some paths.currentDb
  else firstExistingDatabaseSidecar paths state

/-- A current namespace is corroborated from the stamp in its main database file. -/
def corroborateCurrentDatabaseOptions (paths : IndexPaths) (state : Namespace)
    (allowTombstone allowLiveSidecar : Bool) : Except StoreError Database :=
  if !allowTombstone && state.tombstone then .error (.currentTombstoned paths.tombstone)
  else
    match state.database with
    | none => .error (.currentDatabaseMissing paths.currentDb)
    | some database =>
      match if allowLiveSidecar then none else firstExistingDatabaseSidecar paths state with
      | some path => .error (.currentWithDatabaseSidecar path)
      | none =>
        match validateExtractionStamp paths.currentDb database.mainStamp with
        | .error error => .error error
        | .ok () => .ok database

def rejectMissingDatabaseArtifacts (paths : IndexPaths) (state : Namespace) (status : ExtractionStatus) :
    Except StoreError Unit :=
  match status, firstExistingDatabaseArtifact paths state with
  | .missing, some path => .error (.missingStateWithDatabase path)
  | _, _ => .ok ()

def locklessStateError (codec : Codec) (paths : IndexPaths) (state : Namespace) : StoreError :=
  let status := state.status codec paths
  match rejectMissingDatabaseArtifacts paths state status, status with
  | .error error, _ => error
  | .ok (), .missing | .ok (), .future _ | .ok (), .corrupt _ => .stateRejected status
  | .ok (), _ => .stateWithoutPermanentLock status paths.permanentLock

/-- A reader opens only a current namespace with its lock, its stamp, and no other artifact. -/
def openForRead (codec : Codec) (paths : IndexPaths) (state : Namespace) : Except StoreError Database :=
  if state.root ≠ .locked then .error (locklessStateError codec paths state)
  else
    let status := state.status codec paths
    match rejectMissingDatabaseArtifacts paths state status with
    | .error error => .error error
    | .ok () =>
      if status ≠ .current then .error (.stateRejected status)
      else corroborateCurrentDatabaseOptions paths state false false

structure StoreWriteAuthorization where
  status : ExtractionStatus
  purpose : StoreWritePurpose
  deriving DecidableEq

inductive StoreWriteOpen where
  | current
  | fullRebuildRequired (authorization : StoreWriteAuthorization)
  | uninitContinuation (authorization : StoreWriteAuthorization)
  deriving DecidableEq

/-- Each purpose admits its own statuses, and a current database is corroborated first. -/
def admitPurpose (paths : IndexPaths) (state : Namespace) (purpose : StoreWritePurpose)
    (status : ExtractionStatus) (allowCurrentTombstone : Bool) : Except StoreError StoreWriteOpen :=
  let corroborated (allowTombstone allowLiveSidecar : Bool) (opened : StoreWriteOpen) :=
    match corroborateCurrentDatabaseOptions paths state allowTombstone allowLiveSidecar with
    | .error error => .error error
    | .ok _ => .ok opened
  let authorization : StoreWriteAuthorization := ⟨status, purpose⟩
  match purpose, status with
  | .currentMutation, .current => corroborated false false .current
  | .incrementalSync, .current | .staleSidecarRecovery, .current => corroborated false true .current
  | .incrementalSync, .missing | .incrementalSync, .outdated _ | .incrementalSync, .building _ =>
    .ok (.fullRebuildRequired authorization)
  | .fullRebuild, .current =>
    corroborated allowCurrentTombstone false (.fullRebuildRequired authorization)
  | .fullRebuild, _ => .ok (.fullRebuildRequired authorization)
  | .uninitContinuation, .current => corroborated false true (.uninitContinuation authorization)
  | .uninitContinuation, .building _ | .uninitContinuation, .uninitialized
  | .uninitContinuation, .outdated _ => .ok (.uninitContinuation authorization)
  | _, _ => .error (.writePurposeRejected purpose status)

variable {state : Namespace}

theorem admitPurpose_recovery {database : Database}
    (corroborated : corroborateCurrentDatabaseOptions paths state false true = .ok database) :
    admitPurpose paths state .staleSidecarRecovery .current allowTombstone = .ok .current := by
  delta admitPurpose
  simp only [corroborated]

theorem admitPurpose_rebuild {status : ExtractionStatus} (different : status ≠ .current) :
    admitPurpose paths state .fullRebuild status allowTombstone =
      .ok (.fullRebuildRequired ⟨status, .fullRebuild⟩) := by
  cases status <;> first | rfl | exact absurd rfl different

theorem admitPurpose_rebuildCurrent {database : Database}
    (corroborated : corroborateCurrentDatabaseOptions paths state allowTombstone false = .ok database) :
    admitPurpose paths state .fullRebuild .current allowTombstone =
      .ok (.fullRebuildRequired ⟨.current, .fullRebuild⟩) := by
  delta admitPurpose
  simp only [corroborated]

/-- The write gate classifies under the held lease before anything else. -/
def openForWriteWithOptions (codec : Codec) (paths : IndexPaths) (lease : IndexLease)
    (state : Namespace) (purpose : StoreWritePurpose)
    (allowCurrentTombstone allowMissingDatabaseArtifacts : Bool) : Except StoreError StoreWriteOpen :=
  match lease.validateExclusive paths with
  | .error error => .error (.leaseValidation error)
  | .ok () =>
    let status := state.status codec paths
    match status with
    | .future _ | .corrupt _ => .error (.stateRejected status)
    | _ =>
      match if allowMissingDatabaseArtifacts then .ok ()
        else rejectMissingDatabaseArtifacts paths state status with
      | .error error => .error error
      | .ok () => admitPurpose paths state purpose status allowCurrentTombstone

def openForWrite (codec : Codec) (paths : IndexPaths) (lease : IndexLease) (state : Namespace)
    (purpose : StoreWritePurpose) : Except StoreError StoreWriteOpen :=
  openForWriteWithOptions codec paths lease state purpose false false

end Codegraph.Store
