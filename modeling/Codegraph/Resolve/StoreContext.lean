import Codegraph.Resolve.Context

/- This file holds the resolution context that queries the store behind its caches. -/

namespace Codegraph.Resolve
open Codegraph.Core Codegraph.Graph Caching

def defaultCacheLimit : Nat := 5000

def fileExistsMemoLimit : Nat := 200000

def nodeByIdMemoLimit : Nat := 8

/-- Full source texts get one fifth of the normal budget. -/
def contentLimit : Nat := max 64 (defaultCacheLimit / 5)

structure StoreCaches where
  nodeCache : LruCache String (List Node)
  fileCache : LruCache String (Option String)
  sourceFactsCache : LruCache String (Option String)
  importMappingCache : LruCache String (List ImportMapping)
  reExportCache : LruCache String (List ReExport)
  nameCache : LruCache String (List Node)
  lowerNameCache : LruCache String (List Node)
  qualifiedNameCache : LruCache String (List Node)
  allFiles : Option (List String)
  filesByBasename : Option (List (String × List String))
  fileExists : List (String × Bool)
  nodesById : List (String × Option Node)
  swiftTables : SwiftTables

namespace StoreCaches

def new : StoreCaches where
  nodeCache := (LruCache.new defaultCacheLimit).get (by decide)
  fileCache := (LruCache.new contentLimit).get (by decide)
  sourceFactsCache := (LruCache.new contentLimit).get (by decide)
  importMappingCache := (LruCache.new defaultCacheLimit).get (by decide)
  reExportCache := (LruCache.new defaultCacheLimit).get (by decide)
  nameCache := (LruCache.new defaultCacheLimit).get (by decide)
  lowerNameCache := (LruCache.new defaultCacheLimit).get (by decide)
  qualifiedNameCache := (LruCache.new defaultCacheLimit).get (by decide)
  allFiles := none
  filesByBasename := none
  fileExists := []
  nodesById := []
  swiftTables := .new

def nodeCacheField : Field StoreCaches (LruCache String (List Node)) :=
  ⟨nodeCache, fun part caches => { caches with nodeCache := part }⟩

def fileCacheField : Field StoreCaches (LruCache String (Option String)) :=
  ⟨fileCache, fun part caches => { caches with fileCache := part }⟩

def sourceFactsField : Field StoreCaches (LruCache String (Option String)) :=
  ⟨sourceFactsCache, fun part caches => { caches with sourceFactsCache := part }⟩

def importMappingField : Field StoreCaches (LruCache String (List ImportMapping)) :=
  ⟨importMappingCache, fun part caches => { caches with importMappingCache := part }⟩

def reExportField : Field StoreCaches (LruCache String (List ReExport)) :=
  ⟨reExportCache, fun part caches => { caches with reExportCache := part }⟩

def nameField : Field StoreCaches (LruCache String (List Node)) :=
  ⟨nameCache, fun part caches => { caches with nameCache := part }⟩

def lowerNameField : Field StoreCaches (LruCache String (List Node)) :=
  ⟨lowerNameCache, fun part caches => { caches with lowerNameCache := part }⟩

def qualifiedNameField : Field StoreCaches (LruCache String (List Node)) :=
  ⟨qualifiedNameCache, fun part caches => { caches with qualifiedNameCache := part }⟩

def allFilesField : Field StoreCaches (Option (List String)) :=
  ⟨allFiles, fun part caches => { caches with allFiles := part }⟩

def filesByBasenameField : Field StoreCaches (Option (List (String × List String))) :=
  ⟨filesByBasename, fun part caches => { caches with filesByBasename := part }⟩

def fileExistsField : Field StoreCaches (List (String × Bool)) :=
  ⟨fileExists, fun part caches => { caches with fileExists := part }⟩

def nodesByIdField : Field StoreCaches (List (String × Option Node)) :=
  ⟨nodesById, fun part caches => { caches with nodesById := part }⟩

def swiftTablesField : Field StoreCaches SwiftTables :=
  ⟨swiftTables, fun part caches => { caches with swiftTables := part }⟩

end StoreCaches

/-- The context reads one store and one tree. -/
structure StoreResolutionContext where
  store : IndexStore
  tree : ProjectTree
  rules : SourceRules

namespace StoreResolutionContext
open StoreCaches
variable (context : StoreResolutionContext)

def getNodesInFile (filePath : String) : StateM StoreCaches (List Node) :=
  LruCache.memo nodeCacheField filePath (pure (context.store.nodesByFilePath filePath))

def getNodesByName (name : String) : StateM StoreCaches (List Node) :=
  LruCache.memo nameField name (pure (orderCandidates (context.store.nodesByName name)))

def getNodesByQualifiedName (qualifiedName : String) : StateM StoreCaches (List Node) :=
  LruCache.memo qualifiedNameField qualifiedName
    (pure (orderCandidates (context.store.nodesByQualifiedName qualifiedName)))

def getNodesByLowerName (lowerName : String) : StateM StoreCaches (List Node) :=
  LruCache.memo lowerNameField lowerName (pure (orderCandidates (context.store.nodesByLowerName lowerName)))

def getNodesByKind (kind : NodeKind) : StateM StoreCaches (List Node) := pure (context.store.nodesByKind kind)

/-- The last few nodes read by their ids are remembered. -/
def getNodeById (id : String) : StateM StoreCaches (Option Node) :=
  memoised (nodesByIdField.step (getPlain id)) (pure (context.store.nodeById id)) fun node =>
    nodesByIdField.step (setRecent nodeByIdMemoLimit id node)

def knownNodeNames : StateM StoreCaches (List String) := pure context.store.allNodeNames

/-- A known file exists, and any other is looked for in the tree. -/
def fileExists (filePath : String) : StateM StoreCaches Bool :=
  let normalized := forwardSlashes filePath
  let exists_ := (context.store.fileByPath filePath).isSome ||
    (normalized ≠ filePath && (context.store.fileByPath normalized).isSome) || context.tree.probe filePath
  memoised (fileExistsField.step (getPlain filePath)) (pure exists_) fun answer =>
    fileExistsField.step (setRestarting fileExistsMemoLimit filePath answer)

def isIndexedFile (filePath : String) : StateM StoreCaches Bool :=
  pure (context.store.fileByPath (forwardSlashes filePath)).isSome

def readFile (filePath : String) : StateM StoreCaches (Option String) :=
  LruCache.memo fileCacheField filePath (pure (context.tree.readSourceFile filePath))

def sourceFacts (filePath : String) : StateM StoreCaches (Option String) :=
  LruCache.memo sourceFactsField filePath (context.readFile filePath)

def cachedAllFiles : StateM StoreCaches (List String) := onceMemo allFilesField (pure context.store.allFiles)

def cachedFilesByBasename (name : String) : StateM StoreCaches (List String) := do
  let index ← onceMemo filesByBasenameField do
    let files ← context.cachedAllFiles
    pure (group basename files)
  pure ((index.lookup name).getD [])

def resolutionContext : ResolutionContext StoreCaches :=
  ⟨context.getNodesByName, context.sourceFacts, swiftTablesField⟩

/-- The targets of a type node are queried kind by kind. -/
def edgeTargets (node : Node) : List Node :=
  [EdgeKind.implements, EdgeKind.extends_].flatMap fun kind =>
    (context.store.edgesBySourceKind node.id (some kind)).filterMap fun edge => context.store.nodeById edge.target

def getSupertypes (typeName : String) (language : Language) : StateM StoreCaches (List String) :=
  supertypesThrough context.rules context.resolutionContext context.edgeTargets typeName language

def getImportMappings (filePath : String) (language : Language) : StateM StoreCaches (List ImportMapping) :=
  LruCache.memo importMappingField filePath do
    match ← context.readFile filePath with
    | some text => pure (context.rules.extractImportMappings text language)
    | none => pure []

def getReExports (filePath : String) (language : Language) : StateM StoreCaches (List ReExport) :=
  LruCache.memo reExportField filePath do
    match ← context.readFile filePath with
    | some text => pure (context.rules.extractReExports text (reExportLanguage filePath language))
    | none => pure []

def answer : Query → StateM StoreCaches Answer
  | .nodesInFile path => Answer.nodes <$> context.getNodesInFile path
  | .nodesByName name => Answer.nodes <$> context.getNodesByName name
  | .nodesByLowerName name => Answer.nodes <$> context.getNodesByLowerName name
  | .nodesByQualifiedName name => Answer.nodes <$> context.getNodesByQualifiedName name
  | .nodesByKind kind => Answer.nodes <$> context.getNodesByKind kind
  | .nodeById id => Answer.node <$> context.getNodeById id
  | .knownNodeNames => Answer.names <$> context.knownNodeNames
  | .fileExists path => Answer.flag <$> context.fileExists path
  | .isIndexedFile path => Answer.flag <$> context.isIndexedFile path
  | .readFile path => Answer.text <$> context.readFile path
  | .sourceFacts path => Answer.text <$> context.sourceFacts path
  | .allFiles => Answer.names <$> context.cachedAllFiles
  | .filesByBasename name => Answer.names <$> context.cachedFilesByBasename name
  | .supertypes typeName language => Answer.names <$> context.getSupertypes typeName language
  | .importMappings path language => Answer.mappings <$> context.getImportMappings path language
  | .reExports path language => Answer.reExports <$> context.getReExports path language

end StoreResolutionContext

end Codegraph.Resolve
