import Codegraph.GitPending.Worktree

/- This file computes the pending changes from git or from a full scan, and runs the writers of the record. -/

namespace Codegraph.GitPending

section Stores

structure StoredFile where
  size : Int
  modifiedAt : Int
  contentHash : String
  deriving DecidableEq

def StoredFile.unchanged (file : StoredFile) (version : Version) : Bool :=
  file.size = version.size && file.modifiedAt = version.modifiedAt

structure Record where
  v : Nat
  commit : String
  dirty : Finset ProjectPath
  scope : String
  links : Bool
  submodules : Bool
  deriving DecidableEq

def recordVersion : Nat := 1

/-- The stored files, the git record, and the roots of the themes that the last sync saw. -/
structure Store where
  files : Finmap fun _ : ProjectPath => StoredFile
  record : Option Record
  themes : Finset ProjectPath
  deriving DecidableEq

def Store.fileByPath (store : Store) (path : ProjectPath) : Option StoredFile := store.files.lookup path

end Stores

section Pending
variable (rules : Rules) (trees : String → Tree) (world : World) (store : Store)

structure PendingChanges where
  added : Finset ProjectPath
  modified : Finset ProjectPath
  removed : Finset ProjectPath
  deriving DecidableEq

/-- A file that its link makes doubtful is read again whatever its size and time. -/
def rehashes (path : ProjectPath) : Bool :=
  path ∈ world.relinked && scanMembership rules world path false = .unknown

/-- A file that is not source hashes to nothing. -/
def hashNow (path : ProjectPath) : Option String :=
  (world.versionAt path).bind fun version => rules.sourceHash world.scope path version.content

def isSourceFile (path : ProjectPath) : Bool := (hashNow rules world path).isSome

def StoredFile.differs (file : StoredFile) (path : ProjectPath) : Bool :=
  !(world.versionAt path).any file.unchanged || rehashes rules world path

def fullInventory : PendingChanges where
  added := (scanProject rules world).filter fun path =>
    store.fileByPath path = none ∧ isSourceFile rules world path = true
  modified := (scanProject rules world).filter fun path =>
    (store.fileByPath path).any (fun file => file.differs rules world path &&
      (hashNow rules world path).any fun hash => hash ≠ file.contentHash) = true
  removed := (scanProject rules world).filter (fun path =>
      (store.fileByPath path).any (fun file => file.differs rules world path &&
        (hashNow rules world path).isNone) = true) ∪
    store.files.keys.filter fun path => path ∉ scanProject rules world

def aRecordedThemeLostItsMarker : Bool :=
  decide (∃ theme ∈ store.themes, isShopifyTheme theme world.present = false)

/-- Git must answer, know the commit, and see every change of a path that the scan could keep. -/
def gitSees (record : Record) : Bool :=
  record.commit ∈ world.objects && !(indexFlags world).submodules && !(indexFlags world).hiddenChanges &&
    !conversionRisk world && !decide world.nested.Nonempty && !ignoresScannedPath rules world

def candidates (record : Record) (head : String) : Finset ProjectPath :=
  statusPaths trees world head ∪ committedPaths trees record.commit head ∪ record.dirty

def classified (chosen : Finset ProjectPath) : PendingChanges where
  added := chosen.filter fun path =>
    store.fileByPath path = none ∧ scanMembership rules world path false = .admitted ∧
      isSourceFile rules world path = true
  modified := chosen.filter fun path => scanMembership rules world path false = .admitted ∧
    (store.fileByPath path).any (fun file => !(world.versionAt path).any file.unchanged &&
      (hashNow rules world path).any fun hash => hash ≠ file.contentHash) = true
  removed := chosen.filter fun path =>
    (scanMembership rules world path false ≠ .admitted ∧ store.fileByPath path ≠ none) ∨
      (scanMembership rules world path false = .admitted ∧
        (store.fileByPath path).any (fun file => !(world.versionAt path).any file.unchanged &&
          (hashNow rules world path).isNone) = true)

/-- The answer is left to the full inventory whenever git might not see a change. -/
def gitFastPending : Option PendingChanges :=
  match store.record with
  | none => none
  | some record =>
    if record.v ≠ recordVersion ∨ record.links = true ∨ record.submodules = true ∨
        record.scope ≠ scopeFingerprint world then none
    else
      match world.repo with
      | none => none
      | some head =>
        if gitSees rules world record = false then none
        else
          let chosen := candidates trees world record head
          if (∃ path ∈ chosen, isShopifyThemeMarker path = true) ∨
            aRecordedThemeLostItsMarker world store = true then none
          else if ∃ path ∈ chosen, world.isLink path = true ∨ world.isDirectory path = true ∨
              scanMembership rules world path false = .unknown then none
          else some (classified rules world store chosen)

end Pending

section Writers
variable (rules : Rules) (trees : String → Tree)

structure GitIndexCapture where
  commit : String
  status : Finset ProjectPath
  submodules : Bool
  scope : String
  deriving DecidableEq

def GitIndexCapture.begin (world : World) : Option GitIndexCapture :=
  world.repo.map fun head =>
    ⟨head, statusPaths trees world head ∪ world.nested, (indexFlags world).submodules, scopeFingerprint world⟩

/-- A full build or a full sync writes rows, then checks them one by one, and then writes its record. -/
inductive Phase where
  | idle
  | building (capture : Option GitIndexCapture) (scope : String) (links : Bool)
  | checking (capture : GitIndexCapture) (links : Bool) (dirty unchecked : Finset ProjectPath)
  | incremental (scope : String) (requested : Finset ProjectPath)
  deriving DecidableEq

structure State where
  world : World
  store : Store
  phase : Phase
  deriving DecidableEq

/-- A full sync starts from the stored rows, and a full build from none. -/
inductive Action where
  | change (later : World)
  | beginSync
  | beginBuild
  | scan
  | syncOne (path : ProjectPath) (absent forced : Bool)
  | writeThemes (themes : Finset ProjectPath)
  | beginRecord
  | checkRow (path : ProjectPath)
  | writeRecord
  | beginIncremental (requested : Finset ProjectPath)
  | finish
  | interrupt

def forget (store : Store) : Store := { store with record := none }

/-- The record stays under its own scope, with every requested path among the dirty ones. -/
def extendForIncremental (world : World) (requested : Finset ProjectPath) (store : Store) : Store :=
  match store.record with
  | some record =>
    if record.v = recordVersion ∧ record.scope = scopeFingerprint world then
      { store with record := some { record with dirty := record.dirty ∪ requested } }
    else forget store
  | none => forget store

/-- One path's row follows the file, unless its size and time or its content are the stored ones. Only a full sync reads
a file again for its link. -/
def syncOne (world : World) (scope : String) (full : Bool) (path : ProjectPath) (absent forced : Bool) (store : Store) :
    Store :=
  let stored := store.fileByPath path
  match (if absent then none else world.versionAt path) with
  | some version =>
    if forced = false ∧ stored.any (fun file => file.unchanged version) = true ∧
      (full && rehashes rules world path) = false then
      store
    else
      match rules.sourceHash scope path version.content with
      | none => { store with files := store.files.erase path }
      | some hash =>
        if forced = false ∧ stored.any (fun file => file.contentHash = hash) = true then store
        else { store with files := store.files.insert path ⟨version.size, version.modifiedAt, hash⟩ }
  | none => { store with files := store.files.erase path }

/-- A row whose file moved since it was read joins the dirty paths. -/
def checkRow (world : World) (store : Store) (path : ProjectPath) (dirty : Finset ProjectPath) : Finset ProjectPath :=
  if (store.fileByPath path).any (fun file => (world.versionAt path).any file.unchanged) = true then dirty
  else insert path dirty

/-- The record names the commit of the capture and every path that a fresh scan and the rows disagree on. -/
def recordOf (capture : GitIndexCapture) (links : Bool) (dirty : Finset ProjectPath) (world : World) (store : Store) :
    Record where
  v := recordVersion
  commit := capture.commit
  dirty := dirty ∪ (scanProject rules world \ store.files.keys ∪ store.files.keys \ scanProject rules world)
  scope := capture.scope
  links := links
  submodules := capture.submodules

/-- Only one writer runs at a time, and the world may change before any of its steps. -/
def step (state : State) (action : Action) : Option State :=
  match state.phase, action with
  | _, .change later => some { state with world := later }
  | .idle, .beginSync =>
    some { state with
      store := forget state.store
      phase := .building (GitIndexCapture.begin trees state.world) state.world.scope false }
  | .idle, .beginBuild =>
    some { state with
      store := ⟨∅, none, ∅⟩
      phase := .building (GitIndexCapture.begin trees state.world) state.world.scope false }
  | .building capture scope _, .scan =>
    some { state with phase := .building capture scope (decide (linkedFiles rules state.world).Nonempty) }
  | .building _ scope _, .syncOne path absent forced =>
    some { state with store := syncOne rules state.world scope true path absent forced state.store }
  | .incremental scope _, .syncOne path absent forced =>
    some { state with store := syncOne rules state.world scope false path absent forced state.store }
  | .building _ _ _, .writeThemes themes => some { state with store := { state.store with themes := themes } }
  | .incremental _ _, .writeThemes themes => some { state with store := { state.store with themes := themes } }
  | .building none _ _, .beginRecord => some { state with phase := .idle }
  | .building (some capture) _ links, .beginRecord =>
    -- Of a branch that has lost every commit since the capture git would still list the files. Here it gives no answer.
    match (if scopeFingerprint state.world = capture.scope then state.world.repo else none) with
    | some head =>
      some { state with
        phase := .checking capture links (capture.status ∪ (statusPaths trees state.world head ∪ state.world.nested))
          state.store.files.keys }
    | none => some { state with store := forget state.store, phase := .idle }
  | .checking capture links dirty unchecked, .checkRow path =>
    if path ∈ unchecked then
      some { state with
        phase := .checking capture links (checkRow state.world state.store path dirty) (unchecked.erase path) }
    else none
  | .checking capture links dirty unchecked, .writeRecord =>
    if unchecked = ∅ then
      some { state with
        store := { state.store with record := some (recordOf rules capture links dirty state.world state.store) }
        phase := .idle }
    else none
  | .idle, .beginIncremental requested =>
    some { state with
      store := extendForIncremental state.world requested state.store
      phase := .incremental state.world.scope requested }
  | .incremental _ _, .finish => some { state with phase := .idle }
  | _, .interrupt => some { state with phase := .idle }
  | _, _ => none

end Writers

end Codegraph.GitPending
