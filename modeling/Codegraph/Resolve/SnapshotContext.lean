import Codegraph.Resolve.StoreContext

/- This file holds the resolution context that answers from tables built before the pass. -/

namespace Codegraph.Resolve
open Codegraph.Core Codegraph.Graph Caching

structure NodeSnapshot where
  byName : List (String × List Node)
  byLowerName : List (String × List Node)
  byQualifiedName : List (String × List Node)
  byKind : List (NodeKind × List Node)
  byFilePath : List (String × List Node)
  byId : List (String × Node)
  knownNodeNames : List String
  knownFilePaths : Finset String
  allFilePaths : List String
  filesByBasename : List (String × List String)

/-- Each list of a grouping is put in candidate order. -/
def orderGroups (groups : List (String × List Node)) : List (String × List Node) :=
  groups.map fun entry => (entry.1, orderCandidates entry.2)

/-- The lists by file and by kind copy the answers of the store. -/
def NodeSnapshot.fromStore (rules : SourceRules) (store : IndexStore) : NodeSnapshot :=
  let nodes := store.allNodes
  let byId := index Node.id id nodes
  let copied (rows : List Node) : List Node := rows.filterMap fun node => byId.lookup node.id
  let filePaths := (byId.map fun entry => entry.2.filePath).toFinset.sort fun first second => first ≤ second
  let knownFilePaths := store.allFiles.toFinset
  let allFilePaths := knownFilePaths.sort fun first second => first ≤ second
  { byName := orderGroups (group Node.name nodes)
    byLowerName := orderGroups (group (fun node => rules.toLowercase node.name) nodes)
    byQualifiedName := orderGroups (group Node.qualifiedName nodes)
    byKind := index id (fun kind => copied (store.nodesByKind kind)) NodeKind.all
    byFilePath := index id (fun path => copied (store.nodesByFilePath path)) filePaths
    byId := byId
    knownNodeNames := store.allNodeNames
    knownFilePaths := knownFilePaths
    allFilePaths := allFilePaths
    filesByBasename := group basename allFilePaths }

/-- The adjacency groups the edges of the two kinds by their source. -/
def buildEdgeAdjacency (store : IndexStore) : List (String × List Edge) :=
  group Edge.source ([EdgeKind.implements, EdgeKind.extends_].flatMap store.edgesByKind)

structure SnapshotCaches where
  fileContents : BoundedFileMemo (Option String)
  sourceFacts : BoundedFileMemo (Option String)
  importMappings : BoundedFileMemo (List ImportMapping)
  reExports : BoundedFileMemo (List ReExport)
  fsExists : BoundedFileMemo Bool
  swiftTables : SwiftTables

namespace SnapshotCaches

def new : SnapshotCaches where
  fileContents := (BoundedFileMemo.new contentLimit).get (by decide)
  sourceFacts := (BoundedFileMemo.new contentLimit).get (by decide)
  importMappings := (BoundedFileMemo.new defaultCacheLimit).get (by decide)
  reExports := (BoundedFileMemo.new defaultCacheLimit).get (by decide)
  fsExists := (BoundedFileMemo.new fileExistsMemoLimit).get (by decide)
  swiftTables := .new

def fileContentsField : Field SnapshotCaches (BoundedFileMemo (Option String)) :=
  ⟨fileContents, fun part caches => { caches with fileContents := part }⟩

def sourceFactsField : Field SnapshotCaches (BoundedFileMemo (Option String)) :=
  ⟨sourceFacts, fun part caches => { caches with sourceFacts := part }⟩

def importMappingsField : Field SnapshotCaches (BoundedFileMemo (List ImportMapping)) :=
  ⟨importMappings, fun part caches => { caches with importMappings := part }⟩

def reExportsField : Field SnapshotCaches (BoundedFileMemo (List ReExport)) :=
  ⟨reExports, fun part caches => { caches with reExports := part }⟩

def fsExistsField : Field SnapshotCaches (BoundedFileMemo Bool) :=
  ⟨fsExists, fun part caches => { caches with fsExists := part }⟩

def swiftTablesField : Field SnapshotCaches SwiftTables :=
  ⟨swiftTables, fun part caches => { caches with swiftTables := part }⟩

end SnapshotCaches

structure SnapshotResolutionContext where
  snapshot : NodeSnapshot
  edges : List (String × List Edge)
  tree : ProjectTree
  rules : SourceRules

namespace SnapshotResolutionContext
open SnapshotCaches

/-- The snapshot of a store together with its adjacency. -/
def fromStore (store : IndexStore) (tree : ProjectTree) (rules : SourceRules) : SnapshotResolutionContext :=
  ⟨NodeSnapshot.fromStore rules store, buildEdgeAdjacency store, tree, rules⟩

variable (context : SnapshotResolutionContext)

def getNodesInFile (filePath : String) : StateM SnapshotCaches (List Node) :=
  pure ((context.snapshot.byFilePath.lookup filePath).getD [])

def getNodesByName (name : String) : StateM SnapshotCaches (List Node) :=
  pure ((context.snapshot.byName.lookup name).getD [])

def getNodesByQualifiedName (qualifiedName : String) : StateM SnapshotCaches (List Node) :=
  pure ((context.snapshot.byQualifiedName.lookup qualifiedName).getD [])

def getNodesByLowerName (lowerName : String) : StateM SnapshotCaches (List Node) :=
  pure ((context.snapshot.byLowerName.lookup lowerName).getD [])

def getNodesByKind (kind : NodeKind) : StateM SnapshotCaches (List Node) :=
  pure ((context.snapshot.byKind.lookup kind).getD [])

def getNodeById (id : String) : StateM SnapshotCaches (Option Node) := pure (context.snapshot.byId.lookup id)

def knownNodeNames : StateM SnapshotCaches (List String) := pure context.snapshot.knownNodeNames

def fileExists (filePath : String) : StateM SnapshotCaches Bool :=
  let normalized := forwardSlashes filePath
  if filePath ∈ context.snapshot.knownFilePaths then pure true
  else if normalized ≠ filePath ∧ normalized ∈ context.snapshot.knownFilePaths then pure true
  else BoundedFileMemo.memo fsExistsField filePath (pure (context.tree.probe filePath))

def isIndexedFile (filePath : String) : StateM SnapshotCaches Bool :=
  pure (decide (forwardSlashes filePath ∈ context.snapshot.knownFilePaths))

def readFile (filePath : String) : StateM SnapshotCaches (Option String) :=
  BoundedFileMemo.memo fileContentsField filePath (pure (context.tree.readSourceFile filePath))

def sourceFacts (filePath : String) : StateM SnapshotCaches (Option String) :=
  BoundedFileMemo.memo sourceFactsField filePath (context.readFile filePath)

def getAllFiles : StateM SnapshotCaches (List String) := pure context.snapshot.allFilePaths

def getFilesByBasename (name : String) : StateM SnapshotCaches (List String) :=
  pure ((context.snapshot.filesByBasename.lookup name).getD [])

def resolutionContext : ResolutionContext SnapshotCaches :=
  ⟨context.getNodesByName, context.sourceFacts, swiftTablesField⟩

/-- The targets of a type node are read from the adjacency. -/
def edgeTargets (node : Node) : List Node :=
  (((context.edges.lookup node.id).getD []).filter fun edge =>
    edge.kind = EdgeKind.implements || edge.kind = EdgeKind.extends_).filterMap fun edge =>
      context.snapshot.byId.lookup edge.target

def getSupertypes (typeName : String) (language : Language) : StateM SnapshotCaches (List String) :=
  supertypesThrough context.rules context.resolutionContext context.edgeTargets typeName language

def getImportMappings (filePath : String) (language : Language) : StateM SnapshotCaches (List ImportMapping) :=
  BoundedFileMemo.memo importMappingsField filePath do
    let text ← context.readFile filePath
    pure ((text.map fun text => context.rules.extractImportMappings text language).getD [])

def getReExports (filePath : String) (language : Language) : StateM SnapshotCaches (List ReExport) :=
  BoundedFileMemo.memo reExportsField filePath do
    match ← context.readFile filePath with
    | some text => pure (context.rules.extractReExports text (reExportLanguage filePath language))
    | none => pure []

def answer : Query → StateM SnapshotCaches Answer
  | .nodesInFile path => Answer.nodes <$> context.getNodesInFile path
  | .nodesByName name => Answer.nodes <$> context.getNodesByName name
  | .nodesByLowerName name => Answer.nodes <$> context.getNodesByLowerName name
  | .nodesByQualifiedName name => Answer.nodes <$> context.getNodesByQualifiedName name
  | .nodesByKind kind => Answer.nodes <$> context.getNodesByKind kind
  | .nodeById id => Answer.node <$> context.getNodeById id
  | .knownNodeNames => Answer.names <$> context.knownNodeNames
  | .fileExists path => Answer.flag <$> context.fileExists path
  | .isIndexedFile path => Answer.flag <$> context.isIndexedFile path
  | .readFile path => Answer.text <$> context.readFile path
  | .sourceFacts path => Answer.text <$> context.sourceFacts path
  | .allFiles => Answer.names <$> context.getAllFiles
  | .filesByBasename name => Answer.names <$> context.getFilesByBasename name
  | .supertypes typeName language => Answer.names <$> context.getSupertypes typeName language
  | .importMappings path language => Answer.mappings <$> context.getImportMappings path language
  | .reExports path language => Answer.reExports <$> context.getReExports path language

end SnapshotResolutionContext

end Codegraph.Resolve
