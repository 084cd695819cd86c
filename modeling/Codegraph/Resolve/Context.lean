import Codegraph.Graph.Tables
import Codegraph.Resolve.Caches
import Mathlib.Data.Finset.Sort
import Mathlib.Data.List.DropRight
import Mathlib.Data.Prod.Lex
import Mathlib.Data.String.Basic

/- This file holds what a resolution context reads, the queries it answers, and the parts that both contexts share. -/

namespace Codegraph.Resolve
open Codegraph.Core Codegraph.Graph Caching

/-- Lists of names are sorted by the order of strings. -/
instance sortedTrans : IsTrans String (fun first second => first ≤ second) := inferInstance

instance sortedAntisymm : Std.Antisymm (fun first second : String => first ≤ second) := inferInstance

section Store

/-- The SQL function folds the ASCII letters and nothing else. -/
def lower (name : String) : String := String.ofList (name.toList.map Char.toLower)

/-- A query selects nodes by one column. -/
inductive NodeQuery where
  | all
  | byFilePath (path : String)
  | byKind (kind : NodeKind)
  | byName (name : String)
  | byLowerName (name : String)
  | byQualifiedName (name : String)
  deriving DecidableEq

def NodeQuery.selects : NodeQuery → Node → Bool
  | .all, _ => true
  | .byFilePath path, node => node.filePath = path
  | .byKind kind, node => node.kind = kind
  | .byName name, node => node.name = name
  | .byLowerName name, node => lower node.name = lower name
  | .byQualifiedName name, node => node.qualifiedName = name

/-- Two queries promise an order. -/
def NodeQuery.inOrder : NodeQuery → Node → Node → Prop
  | .all, first, second => first.id ≤ second.id
  | .byFilePath _, first, second => first.startLine ≤ second.startLine
  | _, _, _ => True

/-- The edge table is in row order, and each query lists its rows in one order of its own. -/
structure IndexStore extends GraphStore where
  files : List String
  fileKey : files.Nodup
  nodesListed : NodeQuery → List Node
  nodesListedAll : ∀ query, (nodesListed query).Perm (nodes.filter query.selects)
  nodesInOrder : ∀ query, (nodesListed query).Pairwise query.inOrder
  allNodeNames : List String
  nodeNamesAll : ∀ name, name ∈ allNodeNames ↔ name ∈ nodes.map Node.name
  nodeNamesOnce : allNodeNames.Nodup

namespace IndexStore
variable (store : IndexStore)

def allNodes : List Node := store.nodesListed .all

def nodesByFilePath (path : String) : List Node := store.nodesListed (.byFilePath path)

def nodesByKind (kind : NodeKind) : List Node := store.nodesListed (.byKind kind)

def nodesByName (name : String) : List Node := store.nodesListed (.byName name)

def nodesByLowerName (name : String) : List Node := store.nodesListed (.byLowerName name)

def nodesByQualifiedName (name : String) : List Node := store.nodesListed (.byQualifiedName name)

def edgesByKind (kind : EdgeKind) : List Edge := store.edges.filter fun edge => edge.kind = kind

def allFiles : List String := store.files.mergeSort fun first second => first ≤ second

def fileByPath (path : String) : Option String := store.files.find? fun file => file = path

end IndexStore

end Store

section Texts

def candidateKey (node : Node) : String ×ₗ Int ×ₗ Int ×ₗ String :=
  toLex (node.filePath, toLex (node.startLine, toLex (node.startColumn, node.id)))

/-- Candidates are ordered by file, line, column, and id. -/
def orderCandidates (nodes : List Node) : List Node :=
  nodes.mergeSort fun first second => candidateKey first ≤ candidateKey second

/-- The basename follows the last separator of either kind. -/
def basename (file : String) : String :=
  String.ofList (file.toList.rtakeWhile fun letter => !(letter = '/' || letter = '\\'))

def forwardSlashes (path : String) : String :=
  String.ofList (path.toList.map fun letter => if letter = '\\' then '/' else letter)

def normalizeSegment (isAbsolute : Bool) (out : List String) (segment : String) : List String :=
  if segment = "" || segment = "." then out
  else if segment = ".." then
    if out.getLast?.any fun last => last ≠ ".." then out.dropLast
    else if isAbsolute then out
    else out ++ [".."]
  else out ++ [segment]

/-- A parent that nothing precedes stays in a relative path. -/
def normalize (path : String) : String :=
  let isAbsolute := path.toList.head? = some '/'
  let segments := (path.toList.splitOn '/').map String.ofList
  let joined := "/".intercalate (segments.foldl (normalizeSegment isAbsolute) [])
  if isAbsolute then "/" ++ joined else if joined = "" then "." else joined

/-- The path below the root, unless it is absolute or escapes. -/
def lexicalPathWithinRoot (filePath : String) : Option String :=
  let slashed := forwardSlashes filePath
  let windows := match slashed.toList with
    | first :: second :: _ => first.isAlpha && second = ':'
    | _ => false
  if slashed.toList.head? = some '/' || windows then none
  else
    let relative := normalize slashed
    if relative = ".." || decide ("../".toList <+: relative.toList) then none else some relative

def jsFamilyEndings : List String :=
  [".d.ts", ".ts", ".tsx", ".cts", ".mts", ".ctsx", ".mtsx", ".js", ".jsx", ".cjs", ".mjs", ".cjsx", ".mjsx"]

def isJsFamilyPath (filePath : String) : Bool :=
  jsFamilyEndings.any fun ending => decide (ending.toList <:+ (lower filePath).toList)

end Texts

section Queries

structure ImportMapping where
  localName : String
  exportedName : String
  source : String
  isDefault : Bool
  isNamespace : Bool
  deriving DecidableEq

inductive ReExport where
  | named (exportedName originalName source : String)
  | wildcard (source : String)
  | namespace_ (exportedName source : String)
  | localAlias (exportedName originalName : String)
  | commonJsAlias (exportedName originalName : String)
  deriving DecidableEq

inductive Query where
  | nodesInFile (path : String)
  | nodesByName (name : String)
  | nodesByLowerName (name : String)
  | nodesByQualifiedName (name : String)
  | nodesByKind (kind : NodeKind)
  | nodeById (id : String)
  | knownNodeNames
  | fileExists (path : String)
  | isIndexedFile (path : String)
  | readFile (path : String)
  | sourceFacts (path : String)
  | allFiles
  | filesByBasename (name : String)
  | supertypes (typeName : String) (language : Language)
  | importMappings (path : String) (language : Language)
  | reExports (path : String) (language : Language)
  deriving DecidableEq

inductive Answer where
  | nodes (found : List Node)
  | node (found : Option Node)
  | names (found : List String)
  | flag (holds : Bool)
  | text (content : Option String)
  | mappings (found : List ImportMapping)
  | reExports (found : List ReExport)
  deriving DecidableEq

/-- A tree tells which paths below its root exist and what the source files among them say. -/
structure ProjectTree where
  existing : String → Bool
  readSourceFile : String → Option String

/-- Source texts are read by functions that depend on nothing else. -/
structure SourceRules where
  toLowercase : String → String
  extractImportMappings : String → Language → List ImportMapping
  extractReExports : String → Language → List ReExport
  declaresExtension : String → Node → Bool
  headSupertypes : String → Node → List String

def ProjectTree.probe (tree : ProjectTree) (filePath : String) : Bool :=
  (lexicalPathWithinRoot filePath).any tree.existing

/-- The files of the JavaScript family parse as TypeScript. -/
def reExportLanguage (filePath : String) (language : Language) : Language :=
  if isJsFamilyPath filePath then .typeScript else language

end Queries

section Memos
variable {σ V : Type}

def LruCache.memo (field : Field σ (LruCache String V)) (key : String) (compute : StateM σ V) : StateM σ V :=
  memoised (field.step (·.get key)) compute fun value => field.step fun cache => ((), cache.set key value)

def BoundedFileMemo.memo (field : Field σ (BoundedFileMemo V)) (filePath : String) (init : StateM σ V) :
    StateM σ V :=
  memoised (field.step (BoundedFileMemo.claim filePath)) init fun value =>
    field.step fun memo => ((), memo.fill filePath value)

def plainMemo (field : Field σ (List (String × V))) (key : String) (compute : StateM σ V) : StateM σ V :=
  memoised (field.step (getPlain key)) compute fun value => field.step (setPlain key value)

/-- A value of the whole pass is computed once. -/
def onceMemo (field : Field σ (Option V)) (compute : StateM σ V) : StateM σ V :=
  memoised (field.step fun known => (known, known)) compute fun value => field.step fun _ => ((), some value)

variable {kept : σ → Prop} {fits : String → V → Prop} {key : String} {value : V} {compute : StateM σ V}

theorem LruCache.memo_yields {field : Field σ (LruCache String V)} (guarded : field.Guarded kept (LruCache.Holds fits))
    (computed : Yields kept compute (· = value)) (fitting : fits key value)
    (known : ∀ found, fits key found → found = value) : Yields kept (LruCache.memo field key compute) (· = value) := by
  apply Yields.memoised _ computed
  · intro found same
    rw [same]
    exact .step guarded fun part holds => ⟨trivial, holds.set fitting⟩
  · apply Yields.step guarded
    intro part holds
    obtain ⟨found, after⟩ := holds.get key
    exact ⟨fun value same => known value (found value same), after⟩

/-- A value just computed or found answers the next question for its key, whatever that would compute. -/
theorem LruCache.memo_again {field : Field σ (LruCache String V)}
    (reads : ∀ part state, field.read (field.write part state) = part) (other : StateM σ V) (state : σ) :
    ((LruCache.memo field key other).run ((LruCache.memo field key compute).run state).run.2).run.1 =
      ((LruCache.memo field key compute).run state).run.1 := by
  have asks (later : σ) : (field.step (·.get key)).run later =
      (((field.read later).get key).1, field.write ((field.read later).get key).2 later) := rfl
  have found (later : σ) (value : V) (stored : ((field.read later).get key).1 = some value) :
      ((LruCache.memo field key other).run later).run.1 = value := by
    have ran : (LruCache.memo field key other).run later =
      (value, field.write ((field.read later).get key).2 later) := by
      apply run_memoised_found
      rw [asks, stored]
    rw [ran]
    rfl
  apply found
  cases known : ((field.read state).get key).1 with
  | some value =>
    have ran : (LruCache.memo field key compute).run state =
      (value, field.write ((field.read state).get key).2 state) := by
      apply run_memoised_found
      rw [asks, known]
    rw [ran]
    show ((field.read (field.write _ state)).get key).1 = some value
    rw [reads]
    exact LruCache.get_again known
  | none =>
    have ran : (LruCache.memo field key compute).run state =
        let computed := compute.run (field.write ((field.read state).get key).2 state)
        (computed.1, field.write ((field.read computed.2).set key computed.1) computed.2) := by
      apply run_memoised_missing
      rw [asks, known]
    rw [ran]
    show ((field.read (field.write _ _)).get key).1 = some _
    rw [reads]
    exact LruCache.get_set _ _ _

theorem BoundedFileMemo.memo_yields {field : Field σ (BoundedFileMemo V)}
    (guarded : field.Guarded kept (BoundedFileMemo.Holds fits)) (computed : Yields kept compute (· = value))
    (fitting : fits key value) (known : ∀ found, fits key found → found = value) :
    Yields kept (BoundedFileMemo.memo field key compute) (· = value) := by
  apply Yields.memoised _ computed
  · intro found same
    rw [same]
    exact .step guarded fun part holds => ⟨trivial, holds.fill fitting⟩
  · apply Yields.step guarded
    intro part holds
    obtain ⟨found, after⟩ := holds.claim key
    exact ⟨fun value same => known value (found value same), after⟩

/-- A memo of either bound may store a value through any insertion that keeps the fit. -/
theorem tableMemo_yields {field : Field σ (List (String × V))} {set : V → List (String × V) → Unit × List (String × V)}
    (guarded : field.Guarded kept (Fits fits)) (computed : Yields kept compute (· = value))
    (stored : ∀ memo, Fits fits memo → Fits fits (set value memo).2) (known : ∀ found, fits key found → found = value) :
    Yields kept (memoised (field.step (getPlain key)) compute fun value => field.step (set value)) (· = value) := by
  apply Yields.memoised _ computed
  · intro found same
    rw [same]
    exact .step guarded fun part holds => ⟨trivial, stored part holds⟩
  · apply Yields.step guarded
    intro part holds
    exact ⟨fun value same => known value (holds.lookup same), holds⟩

theorem plainMemo_yields {field : Field σ (List (String × V))} (guarded : field.Guarded kept (Fits fits))
    (computed : Yields kept compute (· = value)) (fitting : fits key value)
    (known : ∀ found, fits key found → found = value) : Yields kept (plainMemo field key compute) (· = value) :=
  tableMemo_yields guarded computed (fun _ holds => fits_setPlain holds fitting) known

theorem onceMemo_yields {field : Field σ (Option V)}
    (guarded : field.Guarded kept fun known => ∀ found, known = some found → found = value)
    (computed : Yields kept compute (· = value)) : Yields kept (onceMemo field compute) (· = value) := by
  apply Yields.memoised _ computed
  · intro found same
    apply Yields.step guarded
    intro part holds
    exact ⟨trivial, fun other stored => by cases stored; exact same⟩
  · exact .step guarded fun part holds => ⟨holds, holds⟩

end Memos

section SwiftTypeVisibility

structure SwiftTables where
  extension : List (String × Bool)
  clauses : List (String × List String)
  conformances : List (String × List String)

def SwiftTables.new : SwiftTables := ⟨[], [], []⟩

/-- The part of a context that the visibility of Swift types reads. -/
structure ResolutionContext (σ : Type) where
  getNodesByName : String → StateM σ (List Node)
  sourceFacts : String → StateM σ (Option String)
  swiftTables : Field σ SwiftTables

variable {σ : Type} (rules : SourceRules) (context : ResolutionContext σ)

def ResolutionContext.extension : Field σ (List (String × Bool)) where
  read state := (context.swiftTables.read state).extension
  write part state := context.swiftTables.write { context.swiftTables.read state with extension := part } state

def ResolutionContext.clauses : Field σ (List (String × List String)) where
  read state := (context.swiftTables.read state).clauses
  write part state := context.swiftTables.write { context.swiftTables.read state with clauses := part } state

def ResolutionContext.conformances : Field σ (List (String × List String)) where
  read state := (context.swiftTables.read state).conformances
  write part state := context.swiftTables.write { context.swiftTables.read state with conformances := part } state

def isTypeKind (kind : NodeKind) : Bool :=
  kind ∈ [NodeKind.class_, .struct, .enum, .interface, .protocol, .typeAlias]

def isSwiftType (node : Node) : Bool := node.language = .swift && isTypeKind node.kind

def isSwiftExtension (node : Node) : StateM σ Bool :=
  if node.language ≠ .swift ∨ node.kind ≠ .class_ then pure false
  else plainMemo context.extension node.id do
    let facts ← context.sourceFacts node.filePath
    pure (facts.any fun facts => rules.declaresExtension facts node)

def declaredSupertypes (node : Node) : StateM σ (List String) :=
  plainMemo context.clauses node.id do
    let facts ← context.sourceFacts node.filePath
    pure ((facts.map fun facts => rules.headSupertypes facts node).getD [])

/-- A name qualifies when some Swift type bears it and each one that does is an extension. -/
def onlyExtended (name : String) : StateM σ Bool := do
  let typed := (← context.getNodesByName name).filter isSwiftType
  if typed.isEmpty then pure false else typed.allM (isSwiftExtension rules context)

def extendedConformances (node : Node) : StateM σ (List String) :=
  if node.language ≠ .swift then pure []
  else plainMemo context.conformances node.id do
    let declared ← declaredSupertypes rules context node
    declared.filterM (onlyExtended rules context)

end SwiftTypeVisibility

section Supertypes
variable {σ : Type} (rules : SourceRules) (context : ResolutionContext σ) (targets : Node → List Node)

def supertypeBearing : List NodeKind := [.class_, .struct, .union, .interface, .trait, .protocol, .enum]

def isScalaSingleton (node : Node) : Bool := node.language = .scala && node.kind = .module

def bearsSupertypes (language : Language) (node : Node) : Bool :=
  node.language = language && (node.kind ∈ supertypeBearing || isScalaSingleton node)

/-- The names that one type node adds through its targets. -/
def targetNames (typeName : String) (node : Node) : List String :=
  ((targets node).map Node.name).filter fun name => name ≠ "" && name ≠ typeName

/-- A Swift type inherits the members of a protocol that the project only extends. -/
def conformancesFor (language : Language) (node : Node) : StateM σ (List String) :=
  if language = .swift then extendedConformances rules context node else pure []

def gatherSupertypes (typeName : String) (language : Language) (supertypes : Finset String) (node : Node) :
    StateM σ (Finset String) := do
  let conformances ← conformancesFor rules context language node
  pure (supertypes ∪ (conformances.filter fun name => name ≠ typeName).toFinset ∪
    (targetNames targets typeName node).toFinset)

/-- Both contexts unite the supertypes of every node of the name and differ in how they find an edge's target. -/
def supertypesThrough (typeName : String) (language : Language) : StateM σ (List String) := do
  let typeNodes := (← context.getNodesByName typeName).filter (bearsSupertypes language)
  if typeNodes.isEmpty then pure []
  else
    let supertypes ← typeNodes.foldlM (gatherSupertypes rules context targets typeName language) ∅
    pure (supertypes.sort fun first second => first ≤ second)

end Supertypes

end Codegraph.Resolve
