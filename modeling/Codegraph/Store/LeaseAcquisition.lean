import Codegraph.Library.AdvisoryLocks
import Codegraph.Store.Publisher

/- This file acquires, shares, validates and drops the leases on the permanent lock file of a namespace. -/

namespace Codegraph.Store.Lease
open Codegraph.Store

structure FileIdentity where
  device : Nat
  inode : Nat
  deriving DecidableEq

inductive FileType where
  | file
  | dir
  | symlink
  | other
  deriving DecidableEq

/-- The serial number tells an object from the one that had its inode before. -/
structure FileObject where
  serial : Nat
  identity : FileIdentity
  fileType : FileType
  deriving DecidableEq

/-- What a path names. -/
inductive Entry where
  | absent
  | object (object : FileObject)
  | link (identity : FileIdentity) (target : String)
  deriving DecidableEq

structure Metadata where
  fileType : FileType
  identity : FileIdentity
  deriving DecidableEq

inductive IoError where
  | notFound
  | alreadyExists
  | other
  deriving DecidableEq

inductive IndexLeaseError where
  | lockNotFound (path : String)
  | aliasedLock (path : String)
  | nonRegularLock (path kind : String)
  | lockChangedDuringAcquisition (path : String)
  | lockCreationConflict (path : String)
  | namespaceAlreadyExists (path : String)
  | createRoot (path : String) (source : IoError)
  | openLock (path : String) (source : IoError)
  | timedOut (path : String)
  | cancelled (path : String)
  | lock (path : String) (source : IoError)
  deriving DecidableEq

/-- An open file has one kernel lock at most. -/
structure OpenFile where
  object : FileObject
  held : Option LeaseMode
  deriving DecidableEq

section Paths

variable (entries : String → Entry)

/-- Any system call on a path may also fail for a reason of its own. -/
def symlinkMetadata (faulty : Bool) (path : String) : Except IoError Metadata :=
  if faulty then .error .other
  else match entries path with
    | .absent => .error .notFound
    | .object object => .ok ⟨object.fileType, object.identity⟩
    | .link identity _ => .ok ⟨.symlink, identity⟩

/-- Opening follows links up to the limit of the kernel. -/
def resolve : Nat → String → Option FileObject
  | 0, _ => none
  | limit + 1, path =>
    match entries path with
    | .absent => none
    | .object object => some object
    | .link _ target => resolve limit target

def isAlias (metadata : Metadata) : Bool := metadata.fileType = .symlink

def isRegular (metadata : Metadata) : Bool := metadata.fileType = .file && !isAlias metadata

def metadataObservationMatches (left right : Metadata) : Bool := left.identity = right.identity

def identityForValidatedPath (metadata : Metadata) : FileIdentity := metadata.identity

def OpenFile.metadata (file : OpenFile) : Metadata := ⟨file.object.fileType, file.object.identity⟩

def identityForFile (file : OpenFile) : FileIdentity := file.metadata.identity

def pathStillNamesIdentity (faulty : Bool) (path : String) (expected : FileIdentity) : Except IoError Bool := do
  let metadata ← symlinkMetadata entries faulty path
  if !isRegular metadata then return false
  return identityForValidatedPath metadata = expected

def pathStillNamesFile (faulty : Bool) (path : String) (file : OpenFile) : Except IoError Bool :=
  pathStillNamesIdentity entries faulty path (identityForFile file)

def changed (lockPath : String) : IndexLeaseError := .lockChangedDuringAcquisition lockPath

def validatedPathMetadata (faulty : Bool) (lockPath : String) : Except IndexLeaseError Metadata :=
  match symlinkMetadata entries faulty lockPath with
  | .error .notFound => .error (.lockNotFound lockPath)
  | .error source => .error (.openLock lockPath source)
  | .ok metadata =>
    if isAlias metadata then .error (.aliasedLock lockPath)
    else if !isRegular metadata then
      .error (.nonRegularLock lockPath
        (if metadata.fileType = .dir then "directory" else "non-regular filesystem entry"))
    else .ok metadata

def openedIdentity (faulty : Bool) (file : OpenFile) (lockPath : String) (initial : Option Metadata) :
    Except IndexLeaseError FileIdentity :=
  if faulty then .error (.openLock lockPath .other)
  else if !isRegular file.metadata || initial.any fun before => !metadataObservationMatches before file.metadata then
    .error (changed lockPath)
  else .ok (identityForFile file)

def classifyCreateError (faulty : Bool) (lockPath : String) (source : IoError) : IndexLeaseError :=
  if source = .alreadyExists || (symlinkMetadata entries faulty lockPath).isOk then .lockCreationConflict lockPath
  else .openLock lockPath source

/-- The first observation of the final check, which is made of two. -/
def finalPathIdentityMatches (faulty : Bool) (lockPath : String) (opened : FileIdentity) : Bool :=
  match symlinkMetadata entries faulty lockPath with
  | .error _ => false
  | .ok metadata => isRegular metadata && identityForValidatedPath metadata = opened

end Paths

/-- The three ways to ask for a lease. -/
inductive EntryPoint where
  | acquireExisting (mode : LeaseMode)
  | createExclusiveInExistingRoot
  | createExclusive
  deriving DecidableEq

structure Request where
  paths : IndexPaths
  entryPoint : EntryPoint

def Request.mode (request : Request) : LeaseMode :=
  match request.entryPoint with
  | .acquireExisting mode => mode
  | .createExclusiveInExistingRoot => .exclusive
  | .createExclusive => .exclusive

structure PendingAcquisition where
  lockPath : String
  mode : LeaseMode
  dbParent : String
  openedIdentity : FileIdentity
  deriving DecidableEq

structure LeaseInner where
  file : OpenFile
  mode : LeaseMode
  dbParent : String
  lockPath : String
  deriving DecidableEq

/-- The lease as its validation sees it while the paths name these entries. -/
def LeaseInner.observed (lease : LeaseInner) (entries : String → Entry) (faulty : Bool) : IndexLease where
  mode := lease.mode
  dbParent := lease.dbParent
  lockPath := lease.lockPath
  namesLock := match pathStillNamesFile entries faulty lease.lockPath lease.file with
    | .error _ => false
    | .ok names => names

def LeaseInner.validateExclusive (lease : LeaseInner) (entries : String → Entry) (faulty : Bool) (paths : IndexPaths) :
    Except IndexLeaseValidationError Unit :=
  (lease.observed entries faulty).validateExclusive paths

/-- Where one call stands between two system calls, and the lease after it returned. -/
inductive Attempt where
  | idle
  | starting (request : Request)
  | validated (request : Request) (initial : Metadata)
  | rootAbsent (request : Request)
  | rootCreated (request : Request)
  | creating (request : Request)
  | opened (request : Request) (file : OpenFile) (initial : Option Metadata)
  | waiting (pending : PendingAcquisition) (file : OpenFile)
  | locked (pending : PendingAcquisition) (file : OpenFile)
  | corroborated (pending : PendingAcquisition) (file : OpenFile)
  | leased (lease : LeaseInner) (owners : Nat)
  | closing (file : OpenFile)
  | ended (error : Option IndexLeaseError)

def Attempt.file? : Attempt → Option OpenFile
  | .opened _ file _ => some file
  | .waiting _ file => some file
  | .locked _ file => some file
  | .corroborated _ file => some file
  | .leased lease _ => some lease.file
  | .closing file => some file
  | _ => none

/-- The caller cancels, or the deadline passes, between any two steps. -/
structure Poll where
  cancelled : Bool
  expired : Bool

/-- A poll that stops the call names its reason. -/
def Poll.stops (poll : Poll) (lockPath : String) : Option IndexLeaseError :=
  if poll.cancelled then some (.cancelled lockPath)
  else if poll.expired then some (.timedOut lockPath)
  else none

section Calls

variable (entries : String → Entry) (faulty : Bool)

/-- The first look of a call, at the lock file or at the root. -/
def Request.examine (request : Request) (poll : Poll) (root : String) : Attempt :=
  match poll.stops request.paths.permanentLock with
  | some error => .ended (some error)
  | none =>
    match request.entryPoint with
    | .acquireExisting _ =>
      match validatedPathMetadata entries faulty request.paths.permanentLock with
      | .error error => .ended (some error)
      | .ok initial => .validated request initial
    | .createExclusiveInExistingRoot =>
      match symlinkMetadata entries faulty root with
      | .error source => .ended (some (.createRoot request.paths.currentRoot source))
      | .ok metadata =>
        if metadata.fileType = .dir then .creating request
        else .ended (some (.createRoot request.paths.currentRoot .other))
    | .createExclusive =>
      match symlinkMetadata entries faulty root with
      | .ok _ => .ended (some (.namespaceAlreadyExists request.paths.currentRoot))
      | .error .notFound => .rootAbsent request
      | .error source => .ended (some (.createRoot request.paths.currentRoot source))

def Request.openRoot (request : Request) (root : String) : Attempt :=
  match symlinkMetadata entries faulty root with
  | .error source => .ended (some (.createRoot request.paths.currentRoot source))
  | .ok metadata =>
    if metadata.fileType = .dir then .creating request
    else .ended (some (.createRoot request.paths.currentRoot .other))

def Request.openLock (request : Request) (initial : Metadata) (limit : Nat) : Attempt :=
  let lockPath := request.paths.permanentLock
  if faulty then .ended (some (.openLock lockPath .other))
  else match resolve entries limit lockPath with
    | none => .ended (some (changed lockPath))
    | some object => .opened request ⟨object, none⟩ (some initial)

def Request.pending (request : Request) (openedIdentity : FileIdentity) : PendingAcquisition where
  lockPath := request.paths.permanentLock
  mode := request.mode
  dbParent := request.paths.currentRoot
  openedIdentity := openedIdentity

def Request.identify (request : Request) (file : OpenFile) (initial : Option Metadata) : Attempt :=
  let lockPath := request.paths.permanentLock
  match openedIdentity faulty file lockPath initial with
  | .error error => .ended (some error)
  | .ok identity =>
    if initial.any fun before => identityForValidatedPath before ≠ identity then .ended (some (changed lockPath))
    else .waiting (request.pending identity) file

/-- One turn of the loop. A lock that is not granted is asked for again unless the caller cancels or is late. -/
def PendingAcquisition.tryLock (pending : PendingAcquisition) (file : OpenFile) (before after : Poll) (granted : Bool) :
    Attempt :=
  match before.stops pending.lockPath with
  | some error => .ended (some error)
  | none =>
    if faulty then .ended (some (.lock pending.lockPath .other))
    else if granted then .locked pending { file with held := some pending.mode }
    else match after.stops pending.lockPath with
      | some error => .ended (some error)
      | none => .waiting pending file

def PendingAcquisition.matchIdentity (pending : PendingAcquisition) (file : OpenFile) : Attempt :=
  if finalPathIdentityMatches entries faulty pending.lockPath pending.openedIdentity then .corroborated pending file
  else .ended (some (changed pending.lockPath))

def PendingAcquisition.matchFile (pending : PendingAcquisition) (file : OpenFile) : Attempt :=
  match pathStillNamesFile entries faulty pending.lockPath file with
  | .ok true => .leased ⟨file, pending.mode, pending.dbParent, pending.lockPath⟩ 1
  | _ => .ended (some (changed pending.lockPath))

/-- The last owner unlocks the file before it closes it. -/
def LeaseInner.dropOwner (lease : LeaseInner) : Nat → Attempt
  | owners + 2 => .leased lease (owners + 1)
  | _ => .closing { lease.file with held := none }

end Calls

/-- All paths and all calls of all processes. -/
structure LeaseWorld where
  entries : String → Entry
  attempts : Nat → Attempt

namespace LeaseWorld

variable (world : LeaseWorld)

def put (caller : Nat) (attempt : Attempt) : LeaseWorld :=
  { world with attempts := Function.update world.attempts caller attempt }

def name (path : String) (entry : Entry) : LeaseWorld :=
  { world with entries := Function.update world.entries path entry }

def Linked (object : FileObject) : Prop := ∃ path, world.entries path = .object object

def IsOpen (object : FileObject) : Prop :=
  ∃ caller file, (world.attempts caller).file? = some file ∧ file.object = object

def Alive (object : FileObject) : Prop := world.Linked object ∨ world.IsOpen object

/-- A new object gets an inode that no linked or open object has. -/
def Fresh (object : FileObject) : Prop := ∀ other, world.Alive other → other.identity ≠ object.identity

/-- The kernel locks of the open files. -/
def locks : AdvisoryLocks.Table Nat FileObject := fun caller =>
  (world.attempts caller).file?.bind fun file => file.held.map fun mode => (file.object, decide (mode = .exclusive))

end LeaseWorld

/-- A directory handle reaches its children wherever the directory is by now. -/
def Request.Reaches (request : Request) (path place : String) : Prop :=
  request.entryPoint = .createExclusive ∨ place = path

/-- One system call of one call, one use of a lease, or one change of a path by anyone. -/
inductive LeaseStep (world : LeaseWorld) : LeaseWorld → Prop where
  | start (caller : Nat) (request : Request) (free : world.attempts caller = .idle) :
      LeaseStep world (world.put caller (.starting request))
  | examine (caller : Nat) (request : Request) (poll : Poll) (faulty : Bool) (root : String)
      (stands : world.attempts caller = .starting request) (reaches : request.Reaches request.paths.currentRoot root) :
      LeaseStep world (world.put caller (request.examine world.entries faulty poll root))
  | makeRoot (caller : Nat) (request : Request) (root : String) (object : FileObject)
      (stands : world.attempts caller = .rootAbsent request) (reaches : request.Reaches request.paths.currentRoot root)
      (absent : world.entries root = .absent) (isDir : object.fileType = .dir) (fresh : world.Fresh object) :
      LeaseStep world ((world.name root (.object object)).put caller (.rootCreated request))
  | refuseRoot (caller : Nat) (request : Request) (source : IoError)
      (stands : world.attempts caller = .rootAbsent request) :
      LeaseStep world (world.put caller (.ended (some (if source = .alreadyExists then
        .namespaceAlreadyExists request.paths.currentRoot else .createRoot request.paths.currentRoot source))))
  | openRoot (caller : Nat) (request : Request) (faulty : Bool) (root : String)
      (stands : world.attempts caller = .rootCreated request)
        (reaches : request.Reaches request.paths.currentRoot root) :
      LeaseStep world (world.put caller (request.openRoot world.entries faulty root))
  | createLock (caller : Nat) (request : Request) (place : String) (object : FileObject)
      (stands : world.attempts caller = .creating request) (reaches : request.Reaches request.paths.permanentLock place)
      (absent : world.entries place = .absent) (isFile : object.fileType = .file) (fresh : world.Fresh object) :
      LeaseStep world ((world.name place (.object object)).put caller (.opened request ⟨object, none⟩ none))
  | refuseLock (caller : Nat) (request : Request) (faulty : Bool) (source : IoError)
      (stands : world.attempts caller = .creating request) :
      LeaseStep world (world.put caller
        (.ended (some (classifyCreateError world.entries faulty request.paths.permanentLock source))))
  | openLock (caller : Nat) (request : Request) (initial : Metadata) (faulty : Bool) (limit : Nat)
      (stands : world.attempts caller = .validated request initial) :
      LeaseStep world (world.put caller (request.openLock world.entries faulty initial limit))
  | identify (caller : Nat) (request : Request) (file : OpenFile) (initial : Option Metadata) (faulty : Bool)
      (stands : world.attempts caller = .opened request file initial) :
      LeaseStep world (world.put caller (request.identify faulty file initial))
  | tryLock (caller : Nat) (pending : PendingAcquisition) (file : OpenFile) (before after : Poll)
      (faulty granted : Bool)
      (stands : world.attempts caller = .waiting pending file)
      (kernel : granted = true ↔
        AdvisoryLocks.Grants world.locks caller file.object (decide (pending.mode = .exclusive))) :
      LeaseStep world (world.put caller (pending.tryLock faulty file before after granted))
  | matchIdentity (caller : Nat) (pending : PendingAcquisition) (file : OpenFile) (faulty : Bool)
      (stands : world.attempts caller = .locked pending file) :
      LeaseStep world (world.put caller (pending.matchIdentity world.entries faulty file))
  | matchFile (caller : Nat) (pending : PendingAcquisition) (file : OpenFile) (faulty : Bool)
      (stands : world.attempts caller = .corroborated pending file) :
      LeaseStep world (world.put caller (pending.matchFile world.entries faulty file))
  | clone (caller : Nat) (lease : LeaseInner) (owners : Nat) (stands : world.attempts caller = .leased lease owners) :
      LeaseStep world (world.put caller (.leased lease (owners + 1)))
  | dropOwner (caller : Nat) (lease : LeaseInner) (owners : Nat)
      (stands : world.attempts caller = .leased lease owners) :
      LeaseStep world (world.put caller (lease.dropOwner owners))
  | close (caller : Nat) (file : OpenFile) (stands : world.attempts caller = .closing file) :
      LeaseStep world (world.put caller (.ended none))
  | crash (caller : Nat) : LeaseStep world (world.put caller (.ended none))
  | replace (path : String) (entry : Entry)
      (allowed : ∀ object, entry = .object object → world.Alive object ∨ world.Fresh object) :
      LeaseStep world (world.name path entry)

/-- Before the first call, the linked objects have inodes of their own. -/
structure LeaseWorld.Initial (world : LeaseWorld) : Prop where
  idle : ∀ caller, world.attempts caller = .idle
  distinct : ∀ first second, world.Linked first → world.Linked second → first.identity = second.identity →
    first = second

/-- The worlds that the steps of any processes lead to. -/
inductive LeaseWorld.Reachable : LeaseWorld → Prop where
  | initial {world : LeaseWorld} (initial : world.Initial) : Reachable world
  | step {world next : LeaseWorld} (reached : Reachable world) (step : LeaseStep world next) : Reachable next

/-- A live lease that authorizes a writer of the namespace right now. -/
def LeaseWorld.Validates (world : LeaseWorld) (paths : IndexPaths) (caller : Nat) : Prop :=
  ∃ lease owners faulty, world.attempts caller = .leased lease owners ∧
    lease.validateExclusive world.entries faulty paths = .ok ()

end Codegraph.Store.Lease
