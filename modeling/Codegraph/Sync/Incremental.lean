import Codegraph.Library.Interruptible
import Codegraph.Resolve.Context
import Codegraph.Store.References

/- This file runs a sync of changed paths over the stored files, references, and markers. -/

namespace Codegraph.Sync
open Codegraph.Core Interruptible
open Store (ReferenceSite)

section Tables

/-- The markers, in the order in which a first mutation withdraws them. -/
inductive Marker where
  | moduleSurface
  | cppDependents
  | javaHeads
  | kotlinSurfaces
  | scalaSurfaces
  | csharpSurfaces
  | memberSurfaces
  | rubyHeads
  | cfmlHeads
  | solidityHeads
  | shopifyThemes
  | swiftHeads
  | objcHeads
  | goHeads
  | rustReceivers
  | phpHeads
  | classHeads
  | controlInputs
  | caseFolded
  | luaModules
  | rBindings
  | dartHeads
  | dartLibraries
  | resolvedRefs
  deriving DecidableEq

def Marker.all : List Marker :=
  [.moduleSurface, .cppDependents, .javaHeads, .kotlinSurfaces, .scalaSurfaces, .csharpSurfaces, .memberSurfaces,
    .rubyHeads, .cfmlHeads, .solidityHeads, .shopifyThemes, .swiftHeads, .objcHeads, .goHeads, .rustReceivers,
    .phpHeads, .classHeads, .controlInputs, .caseFolded, .luaModules, .rBindings, .dartHeads, .dartLibraries,
    .resolvedRefs]

structure FileRow where
  path : String
  language : Language
  size : Int
  modifiedAt : Int
  contentHash : String
  deriving DecidableEq

/-- A reference waits for the resolver, was left unresolved by it, lost its edge, or has one into a target's file.
An edge without a line or a column is not located. -/
inductive RefState where
  | pending
  | parked
  | lost
  | resolved (target : String) (located : Bool)
  deriving DecidableEq

structure RefRow where
  filePath : String
  site : ReferenceSite
  state : RefState
  deriving DecidableEq

/-- The resolver was not given the reference since it was extracted or lost its edge. -/
def RefRow.due (row : RefRow) : Bool := row.state = .pending || row.state = .lost

/-- Only these rows stand in the table that resolution reads. -/
def RefRow.unresolved (row : RefRow) : Bool := row.state = .pending || row.state = .parked

structure SyncStore where
  files : List FileRow
  refs : List RefRow
  markers : List Marker
  frameworks : Option (List String)
  pendingThemes : List String
  resolutionIncomplete : Bool
  deriving DecidableEq

def SyncStore.indexed (store : SyncStore) (path : String) : Bool := store.files.any fun file => file.path = path

def SyncStore.fileByPath (store : SyncStore) (path : String) : Option FileRow :=
  store.files.find? fun file => file.path = path

end Tables

section Lanes

def hasModuleSurface (path : String) (language : Language) : Bool :=
  Resolve.isJsFamilyPath path ||
    language ∈ [Language.typeScript, .javaScript, .tsx, .jsx, .arkTs, .vue, .svelte, .astro]

def isMemberTypedLanguage (language : Language) : Bool := language ∈ [Language.cSharp, .java, .kotlin, .swift]

def hasMemberSurface (language : Language) : Bool := isMemberTypedLanguage language || language = .dart

def mayDeclare (language : Language) : Bool :=
  language ∈ [Language.java, .cSharp, .kotlin, .dart, .swift, .objC, .scala, .pascal, .python, .ruby, .php, .typeScript,
    .tsx, .javaScript, .jsx, .vue, .svelte, .astro]

def caseInsensitiveLanguages : List Language := [.php, .pascal, .cfml]

inductive ControlKind where
  | js
  | csharp
  | rust
  deriving DecidableEq

def ControlKind.all : List ControlKind := [.js, .csharp, .rust]

def ControlKind.readsFrom (kind : ControlKind) (file : FileRow) : Bool :=
  match kind with
  | .js => hasModuleSurface file.path file.language
  | .csharp => file.language = .cSharp
  | .rust => decide (".rs".toList <:+ file.path.toList)

/-- The files that a sync resolves again when the marker is missing. -/
def Marker.rereads (marker : Marker) (file : FileRow) : Bool :=
  match marker with
  | .moduleSurface => hasModuleSurface file.path file.language
  | .cppDependents => file.language ∈ [Language.c, .cpp]
  | .javaHeads => file.language = .java
  | .kotlinSurfaces => file.language = .kotlin
  | .scalaSurfaces => file.language = .scala
  | .csharpSurfaces => file.language = .cSharp
  | .memberSurfaces => hasMemberSurface file.language
  | .rubyHeads => file.language = .ruby
  | .cfmlHeads => file.language = .cfml
  | .solidityHeads => file.language = .solidity
  | .shopifyThemes => file.language = .liquid
  | .swiftHeads => file.language = .swift
  | .objcHeads => file.language = .objC
  | .goHeads => file.language = .go
  | .rustReceivers => file.language = .rust
  | .phpHeads => file.language = .php
  | .classHeads => mayDeclare file.language
  | .controlInputs => ControlKind.all.any fun kind => kind.readsFrom file
  | .caseFolded => file.language ∈ caseInsensitiveLanguages
  | .luaModules => file.language ∈ [Language.lua, .luau]
  | .rBindings => file.language = .r
  | .dartHeads => file.language = .dart
  | .dartLibraries => file.language = .dart
  | .resolvedRefs => false

/-- A theme at the project root holds every file. -/
def isUnder (path theme : String) : Bool := theme = "" || decide ((theme ++ "/").toList <+: path.toList)

end Lanes

section Calls

/-- A text has a hash, a language, and the sites of its references; a clip under a source name has none of them. -/
inductive SourceText where
  | text (contentHash : String) (language : Language) (sites : List ReferenceSite)
  | notSource
  deriving DecidableEq

structure DiskFile where
  size : Int
  modifiedAt : Int
  source : Option SourceText
  deriving DecidableEq

inductive DiskEntry where
  | file (content : DiskFile)
  | directory
  deriving DecidableEq

/-- One call hands paths to a sync and fixes what the tree, the rows of the lanes, and the resolver answer it. -/
structure SyncCall where
  paths : List String
  inScope : String → Bool
  rehash : String → Bool
  disk : String → Option DiskEntry
  unreadableRows : Marker → Bool
  movedThemes : List String
  themePaths : List String
  movedControls : List ControlKind
  pubspecsMoved : Bool
  detected : List String
  selected : Marker → List String
  namedSites : List (String × Option ReferenceSite)
  retriedFiles : List String
  receiverSites : List (String × ReferenceSite)
  frameworkSites : String → List ReferenceSite
  readsStored : String → Bool
  wiring : RefRow → Bool
  retried : RefRow → Bool
  resolve : RefRow → Option (String × Bool)

/-- What a sync has noted of its own changes. -/
structure ChangedNotes where
  dirty : Bool
  seen : List String
  reindexed : List String
  sites : List (String × ReferenceSite)
  fallbacks : List String
  deriving DecidableEq

def ChangedNotes.fresh : ChangedNotes := ⟨false, [], [], [], []⟩

/-- A sync may stop before any of its writes. -/
structure Work where
  budget : Option Nat
  store : SyncStore
  notes : ChangedNotes
  deriving DecidableEq

inductive SyncError where
  | stopped
  | unreadable (path : String)
  deriving DecidableEq

abbrev SyncM := Program SyncError Work

def tick : SyncM Unit := do
  let work ← get
  match work.budget with
  | some 0 => throw .stopped
  | some (left + 1) => modify fun work => { work with budget := some left }
  | none => pure ()

def write (update : SyncStore → SyncStore) : SyncM Unit := do
  tick
  modify fun work => { work with store := update work.store }

def writeAll : List (SyncStore → SyncStore) → SyncM Unit
  | [] => pure ()
  | update :: rest => do
    write update
    writeAll rest

def note (update : ChangedNotes → ChangedNotes) : SyncM Unit :=
  modify fun work => { work with notes := update work.notes }

end Calls

section Mutations

def withdraw (marker : Marker) (store : SyncStore) : SyncStore :=
  { store with markers := store.markers.filter fun present => present ≠ marker }

def restore (marker : Marker) (store : SyncStore) : SyncStore := { store with markers := marker :: store.markers }

/-- Every marker is withdrawn before the first mutation of a sync. -/
def beginMutation : SyncM Unit := do
  let work ← get
  if work.notes.dirty then pure ()
  else
    writeAll (Marker.all.map withdraw)
    note fun notes => { notes with dirty := true }

/-- The sites of other files that resolve into the file, without a site when the edge is not located. -/
def SyncStore.dependentsOf (store : SyncStore) (path : String) : List (String × Option ReferenceSite) :=
  store.refs.filterMap fun row =>
    match row.state with
    | .resolved target located =>
      if target = path ∧ row.filePath ≠ path then some (row.filePath, if located then some row.site else none) else none
    | _ => none

/-- A file goes whole once one of its sites is not located. -/
def mergeDependentSite (notes : ChangedNotes) : String × Option ReferenceSite → ChangedNotes
  | (path, some site) => if path ∈ notes.fallbacks then notes else { notes with sites := (path, site) :: notes.sites }
  | (path, none) =>
    { notes with sites := notes.sites.filter (fun entry => entry.1 ≠ path), fallbacks := path :: notes.fallbacks }

def goWhole (notes : ChangedNotes) (path : String) : ChangedNotes := mergeDependentSite notes (path, none)

def deleteResolvedRefs (path : String) (store : SyncStore) : SyncStore :=
  { store with refs := store.refs.filter fun row => row.filePath ≠ path || row.unresolved }

def deleteUnresolvedRefs (path : String) (store : SyncStore) : SyncStore :=
  { store with refs := store.refs.filter fun row => row.filePath ≠ path || !row.unresolved }

/-- An edge falls with the node it enters. -/
def RefRow.loseTarget (path : String) (row : RefRow) : RefRow :=
  match row.state with
  | .resolved target _ => if target = path then { row with state := .lost } else row
  | _ => row

/-- The nodes of the file take their references and every edge into them along. -/
def deleteFileRecord (path : String) (store : SyncStore) : SyncStore :=
  { store with
    files := store.files.filter fun file => file.path ≠ path
    refs := (store.refs.filter fun row => row.filePath ≠ path).map (.loseTarget path) }

def insertUnresolvedRefs (path : String) (sites : List ReferenceSite) (store : SyncStore) : SyncStore :=
  { store with refs := store.refs ++ sites.map fun site => ⟨path, site, .pending⟩ }

def upsertFile (file : FileRow) (store : SyncStore) : SyncStore :=
  { store with files := store.files.filter (fun row => row.path ≠ file.path) ++ [file] }

/-- The sites of the dependents are noted before the edges that name them fall. -/
def noteDependents (path : String) : SyncM Unit := do
  let work ← get
  note fun notes => (work.store.dependentsOf path).foldl mergeDependentSite notes

def noteReindexed (path : String) : SyncM Unit := note fun notes => { notes with reindexed := path :: notes.reindexed }

/-- A removed file counts as reindexed. -/
def removeTrackedFile (path : String) : SyncM Unit := do
  let work ← get
  if work.store.indexed path then
    beginMutation
    noteDependents path
    writeAll [deleteResolvedRefs path, deleteUnresolvedRefs path, deleteFileRecord path]
    noteReindexed path
  else pure ()

/-- The nodes and the edges inside the file are written between its deletion and its references. -/
def reextract (file : FileRow) (sites : List ReferenceSite) : SyncM Unit := do
  beginMutation
  noteDependents file.path
  writeAll [deleteResolvedRefs file.path, deleteUnresolvedRefs file.path, deleteFileRecord file.path, id, id,
    insertUnresolvedRefs file.path sites, upsertFile file]
  noteReindexed file.path

/-- A file whose size and time are stored is taken to be unchanged. -/
def SyncCall.skips (call : SyncCall) (stored : Option FileRow) (content : DiskFile) : Bool :=
  stored.any fun file =>
    file.size = content.size && file.modifiedAt = content.modifiedAt && !call.rehash file.path

def syncOne (call : SyncCall) (path : String) (forceAbsent forceReextract : Bool) : SyncM Unit := do
  match (if forceAbsent then none else call.disk path) with
  | some (.file content) =>
    let stored := (← get).store.fileByPath path
    if !forceReextract && call.skips stored content then pure ()
    else
      match content.source with
      | none => throw (.unreadable path)
      | some .notSource => removeTrackedFile path
      | some (.text contentHash language sites) =>
        if !forceReextract && stored.any (fun file => file.contentHash = contentHash) then pure ()
        else reextract ⟨path, language, content.size, content.modifiedAt, contentHash⟩ sites
  | _ => removeTrackedFile path

/-- A path out of scope is only looked at when its file is stored. -/
def syncPath (call : SyncCall) (path : String) : SyncM Unit := do
  let work ← get
  if path ∈ work.notes.seen then pure ()
  else
    note fun notes => { notes with seen := path :: notes.seen }
    if !call.inScope path && !work.store.indexed path then pure ()
    else syncOne call path (!call.inScope path) false

def syncPaths (call : SyncCall) : List String → SyncM Unit
  | [] => pure ()
  | path :: rest => do
    syncPath call path
    syncPaths call rest

end Mutations

section Reconciliation

/-- Three lanes also rebuild when a row of theirs cannot be read. -/
def SyncCall.needsBootstrap (call : SyncCall) (store : SyncStore) (marker : Marker) : Bool :=
  marker ∉ store.markers ||
    (marker ∈ [Marker.luaModules, .dartHeads, .dartLibraries] && call.unreadableRows marker)

def SyncCall.missing (call : SyncCall) (store : SyncStore) : List Marker :=
  Marker.all.filter (call.needsBootstrap store)

def SyncCall.themes (call : SyncCall) (store : SyncStore) : List String :=
  store.pendingThemes ++ call.movedThemes.filter fun theme => theme ∉ store.pendingThemes

/-- A missing marker moves every kind of control file. -/
def SyncCall.controls (call : SyncCall) (missing : List Marker) : List ControlKind :=
  if .controlInputs ∈ missing then ControlKind.all else call.movedControls

/-- The lanes that select whole files from a missing marker or from the changes of the sync. -/
def Marker.lanes : List Marker :=
  [.moduleSurface, .cppDependents, .javaHeads, .kotlinSurfaces, .scalaSurfaces, .csharpSurfaces, .memberSurfaces,
    .rubyHeads, .cfmlHeads, .solidityHeads, .swiftHeads, .objcHeads, .goHeads, .phpHeads, .classHeads, .dartHeads,
    .dartLibraries, .luaModules, .rBindings, .caseFolded, .rustReceivers]

/-- Without a mutation no lane has a change to follow. -/
def laneFiles (call : SyncCall) (missing : List Marker) (work : Work) (marker : Marker) : List String :=
  if marker ∈ missing then
    (work.store.files.filter fun file => marker.rereads file && file.path ∉ work.notes.reindexed).map FileRow.path
  else if work.notes.dirty then call.selected marker
  else []

def liquidFiles (missing : List Marker) (themes : List String) (work : Work) : List String :=
  (work.store.files.filter fun file =>
    file.language = .liquid && (.shopifyThemes ∈ missing || themes.any (isUnder file.path)) &&
      file.path ∉ work.notes.reindexed).map FileRow.path

def controlFiles (controls : List ControlKind) (work : Work) : List String :=
  (work.store.files.filter fun file =>
    controls.any (fun kind => kind.readsFrom file) && file.path ∉ work.notes.reindexed).map FileRow.path

def wholeFiles (call : SyncCall) (missing : List Marker) (themes : List String) (controls : List ControlKind)
    (work : Work) : List String :=
  Marker.lanes.flatMap (laneFiles call missing work) ++ liquidFiles missing themes work ++ controlFiles controls work

/-- The files and the sites that the lanes and the changed names call for join the dependents. -/
def noteLanes (call : SyncCall) (missing : List Marker) (themes : List String) (controls : List ControlKind) :
    SyncM Unit := do
  let work ← get
  let named := if work.notes.dirty then call.namedSites else []
  let retried := if work.notes.dirty then call.retriedFiles else []
  note fun notes =>
    retried.foldl goWhole (named.foldl mergeDependentSite
      ((wholeFiles call missing themes controls work).foldl goWhole notes))

/-- A framework that came or went extracts every other file again. -/
def reextractOther (call : SyncCall) (path : String) : SyncM Unit := do
  let work ← get
  if path ∈ work.notes.reindexed then pure () else syncOne call path false true

def reextractAll (call : SyncCall) : List FileRow → SyncM Unit
  | [] => pure ()
  | file :: rest => do
    reextractOther call file.path
    reextractAll call rest

def applyFrameworkChange (call : SyncCall) : SyncM Unit := do
  let work ← get
  if work.store.frameworks = some call.detected then pure ()
  else
    beginMutation
    write fun store => { store with frameworks := none }
    let work ← get
    reextractAll call work.store.files

/-- The references that frameworks find in the reindexed files. -/
def persistFrameworks (call : SyncCall) : SyncM Unit := do
  let work ← get
  let paths := work.notes.reindexed.filter work.store.indexed
  write fun store => paths.foldl (fun store path => insertUnresolvedRefs path (call.frameworkSites path) store) store

/-- A replacement puts fresh references in the place of a file's or of some sites'. -/
inductive Replacement where
  | wholeFile (path : String) (fresh : List ReferenceSite)
  | atSites (path : String) (replaced : List ReferenceSite) (fresh : List ReferenceSite)
  deriving DecidableEq

def Replacement.apply (store : SyncStore) : Replacement → SyncStore
  | .wholeFile path fresh =>
    insertUnresolvedRefs path fresh { store with refs := store.refs.filter fun row => row.filePath ≠ path }
  | .atSites path replaced fresh =>
    insertUnresolvedRefs path fresh { store with refs := store.refs.filter fun row => row.site ∉ replaced }

/-- The references of a dependent are read from their rows or extracted again. -/
def dependentRefs (call : SyncCall) (store : SyncStore) (path : String) : Except SyncError (List ReferenceSite) :=
  if call.readsStored path then
    .ok ((store.refs.filter fun row => row.filePath = path).map RefRow.site)
  else
    match call.disk path with
    | some (.file ⟨_, _, some (.text _ _ sites)⟩) => .ok sites
    | some (.file ⟨_, _, some .notSource⟩) => .ok []
    | _ => .error (.unreadable path)

/-- A dependent goes whole when it must or when one of its sites has no reference any more. -/
def replacementFor (call : SyncCall) (notes : ChangedNotes) (path : String) (refs : List ReferenceSite) :
    Option Replacement :=
  let own := (notes.sites.filter fun entry => entry.1 = path).map Prod.snd
  if path ∈ notes.fallbacks ∨ own.any (fun site => site ∉ refs) then some (.wholeFile path refs)
  else
    let received := (call.receiverSites.filter fun entry => entry.1 = path && notes.dirty).map Prod.snd
    let all := own ++ received.filter fun site => site ∈ refs
    if all.isEmpty then none else some (.atSites path all (refs.filter fun site => site ∈ all))

def replacements (call : SyncCall) (work : Work) : List String → Except SyncError (List Replacement)
  | [] => .ok []
  | path :: rest => do
    let refs ← dependentRefs call work.store path
    let others ← replacements call work rest
    pure ((replacementFor call work.notes path refs).toList ++ others)

def dependents (call : SyncCall) (work : Work) : List String :=
  ((work.notes.sites.map Prod.fst ++ work.notes.fallbacks ++
    (call.receiverSites.filter fun _ => work.notes.dirty).map Prod.fst).dedup).filter fun path =>
      path ∉ work.notes.reindexed && (call.disk path).isSome

def Replacement.files : Replacement → List String
  | .wholeFile path _ => [path]
  | .atSites _ _ _ => []

def Replacement.sitesOf : Replacement → List ReferenceSite
  | .wholeFile _ _ => []
  | .atSites _ replaced _ => replaced

/-- Every replacement lands in one transaction, and what was replaced is resolved next. -/
def refreshDependentRefs (call : SyncCall) : SyncM (List ReferenceSite × List String) := do
  let work ← get
  let all ← .lift (replacements call work (dependents call work))
  if all.isEmpty then pure ([], [])
  else
    write fun store => all.foldl Replacement.apply store
    pure (all.flatMap Replacement.sitesOf, all.flatMap Replacement.files)

def RefRow.given (call : SyncCall) (row : RefRow) : RefRow :=
  { row with
    state := match call.resolve row with
      | some (target, located) => .resolved target located
      | none => .parked }

def resolveRows (call : SyncCall) (chosen : RefRow → Bool) (store : SyncStore) : SyncStore :=
  { store with refs := store.refs.map fun row => if row.unresolved && chosen row then row.given call else row }

/-- The wiring references are resolved first. -/
def resolveIncrementalAndPersist (call : SyncCall) (sites : List ReferenceSite) (files : List String) : SyncM Unit := do
  let inScope : RefRow → Bool := fun row => row.filePath ∈ files || row.site ∈ sites || call.retried row
  writeAll [resolveRows call (fun row => inScope row && call.wiring row),
    resolveRows call (fun row => inScope row && !call.wiring row)]

/-- The markers come back last, and that of the stored references only if it held at the start. -/
def restoreMarkers (missing : List Marker) : SyncM Unit :=
  writeAll ((Marker.all.filter fun marker => marker ≠ .resolvedRefs || marker ∉ missing).map restore)

def reconcile (call : SyncCall) (missing : List Marker) (themes : List String) (controls : List ControlKind) :
    SyncM Unit := do
  applyFrameworkChange call
  noteLanes call missing themes controls
  persistFrameworks call
  let (sites, files) ← refreshDependentRefs call
  let work ← get
  resolveIncrementalAndPersist call sites (work.notes.reindexed ++ files)
  writeAll [fun store => { store with pendingThemes := [] },
    fun store => { store with frameworks := some call.detected }]
  restoreMarkers missing

/-- The sweep gives every waiting reference to the resolver. -/
def sweepOrphanedRefs (call : SyncCall) : SyncM Unit :=
  writeAll [resolveRows call fun _ => true, fun store => { store with resolutionIncomplete := false }]

/-- The rebuilt lanes, the themes, and the control files are read before the paths and judged after them. -/
def SyncCall.calls (call : SyncCall) (missing : List Marker) (themes : List String) (controls : List ControlKind)
    (work : Work) : Bool :=
  !work.notes.reindexed.isEmpty || missing.any (fun marker => marker ≠ .controlInputs && marker ≠ .resolvedRefs) ||
    !themes.isEmpty || !controls.isEmpty || call.pubspecsMoved || work.store.frameworks.isNone

/-- A lane that is rebuilt although its marker stands withdraws it first. -/
def withdrawRebuilt (missing : List Marker) : SyncM Unit :=
  writeAll (([Marker.luaModules, .dartHeads, .dartLibraries].filter fun marker => marker ∈ missing).map withdraw)

def storeThemes (themes : List String) : SyncM Unit := do
  let work ← get
  if themes = work.store.pendingThemes then pure () else write fun store => { store with pendingThemes := themes }

def moveControls (call : SyncCall) (controls : List ControlKind) : SyncM Unit :=
  if controls.isEmpty && !call.pubspecsMoved then pure () else beginMutation

def reconcileCalled (call : SyncCall) (missing : List Marker) (themes : List String) (controls : List ControlKind) :
    SyncM Unit := do
  let work ← get
  if call.calls missing themes controls work then reconcile call missing themes controls else pure ()

def sweepIncomplete (call : SyncCall) : SyncM Unit := do
  let work ← get
  if work.store.resolutionIncomplete then sweepOrphanedRefs call else pure ()

def syncPathsWithStore (call : SyncCall) : SyncM Unit := do
  let start ← get
  let missing := call.missing start.store
  let themes := call.themes start.store
  let controls := call.controls missing
  withdrawRebuilt missing
  storeThemes themes
  syncPaths call (call.paths ++ call.themePaths)
  moveControls call controls
  reconcileCalled call missing themes controls
  sweepIncomplete call

/-- A sync starts with nothing noted and may be given a point at which it stops. -/
def runSync (call : SyncCall) (budget : Option Nat) (store : SyncStore) : Except SyncError Unit × SyncStore :=
  let ended := (syncPathsWithStore call).exec ⟨budget, store, .fresh⟩
  (ended.1, ended.2.store)

end Reconciliation

end Codegraph.Sync
