import Codegraph.Resolve.SnapshotContext

/- This file compares the answers of the two resolution contexts over whole sequences of queries. -/

namespace Codegraph.Resolve
open Codegraph.Core Codegraph.Graph Caching List

section Order

/-- Two lists of the same rows come to the same candidate order when their ids are unique. -/
theorem orderCandidates_perm {first second : List Node}
    (keyed : ∀ left ∈ first, ∀ right ∈ first, left.id = right.id → left = right) (same : first.Perm second) :
    orderCandidates first = orderCandidates second := by
  have sorted (nodes : List Node) :
      (orderCandidates nodes).Pairwise fun left right => decide (candidateKey left ≤ candidateKey right) = true := by
    apply pairwise_mergeSort
    · intro left middle right before after
      simp only [decide_eq_true_eq] at before after ⊢
      exact le_trans before after
    · intro left right
      simpa using le_total (candidateKey left) (candidateKey right)
  have all : (orderCandidates first).Perm (orderCandidates second) :=
    (mergeSort_perm first _).trans (same.trans (mergeSort_perm second _).symm)
  apply List.Perm.eq_of_pairwise _ (sorted first) (sorted second) all
  intro left right leftIn rightIn before after
  simp only [decide_eq_true_eq] at before after
  have leftRow : left ∈ first := (mergeSort_perm first _).mem_iff.mp leftIn
  have rightRow : right ∈ first := same.mem_iff.mpr ((mergeSort_perm second _).mem_iff.mp rightIn)
  have keys : candidateKey left = candidateKey right := le_antisymm before after
  apply keyed left leftRow right rightRow
  simp only [candidateKey, EmbeddingLike.apply_eq_iff_eq, Prod.mk.injEq] at keys
  exact keys.2.2.2

theorem mem_orderCandidates {nodes : List Node} {node : Node} : node ∈ orderCandidates nodes ↔ node ∈ nodes :=
  (mergeSort_perm nodes _).mem_iff

theorem orderGroups_lookup (groups : List (String × List Node)) (key : String) :
    ((orderGroups groups).lookup key).getD [] = orderCandidates ((groups.lookup key).getD []) := by
  induction groups with
  | nil => simp [orderGroups, orderCandidates]
  | cons entry rest ih =>
    rw [orderGroups, map_cons, lookup_cons, lookup_cons]
    cases key == entry.1 with
    | true => rfl
    | false => exact ih

end Order

section SnapshotTables
variable {store : IndexStore} {rules : SourceRules}

theorem IndexStore.keyed {left right : Node} (leftRow : left ∈ store.nodes) (rightRow : right ∈ store.nodes)
    (same : left.id = right.id) : left = right := inj_on_of_nodup_map store.nodeKey leftRow rightRow same

theorem IndexStore.mem_listed {query : NodeQuery} {node : Node} :
    node ∈ store.nodesListed query ↔ node ∈ store.nodes ∧ query.selects node = true := by
  rw [(store.nodesListedAll query).mem_iff, mem_filter]

/-- The rows of a query are those of the whole listing that it selects. -/
theorem IndexStore.listed_perm (query : NodeQuery) :
    (store.nodesListed query).Perm (store.allNodes.filter query.selects) := by
  have every : NodeQuery.all.selects = fun _ => true := rfl
  have whole := store.nodesListedAll .all
  rw [every, filter_true] at whole
  exact (store.nodesListedAll query).trans (whole.symm.filter _)

theorem IndexStore.mem_allNodes {node : Node} : node ∈ store.allNodes ↔ node ∈ store.nodes := by
  simp [allNodes, mem_listed, NodeQuery.selects]

theorem IndexStore.nodeById_of_mem {node : Node} (stored : node ∈ store.nodes) :
    store.nodeById node.id = some node := by
  cases found : store.nodeById node.id with
  | some row => rw [store.keyed (GraphStore.nodeById_mem found) stored (GraphStore.nodeById_id found)]
  | none => exact absurd (decide_eq_true rfl) (find?_eq_none.mp found node stored)

theorem byId_lookup (wanted : String) : (index Node.id id store.allNodes).lookup wanted = store.nodeById wanted := by
  cases found : store.nodeById wanted with
  | some row =>
    have stored := GraphStore.nodeById_mem found
    have named := GraphStore.nodeById_id found
    apply index_lookup _ (IndexStore.mem_allNodes.mpr stored) named
    intro node listed same
    exact store.keyed (IndexStore.mem_allNodes.mp listed) stored (same.trans named.symm)
  | none =>
    apply index_lookup_absent
    intro node listed same
    rw [← same, IndexStore.nodeById_of_mem (IndexStore.mem_allNodes.mp listed)] at found
    cases found

/-- The copy that a snapshot makes of the rows of a query. -/
def copied (store : IndexStore) (query : NodeQuery) : List Node :=
  (store.nodesListed query).filterMap fun node => (index Node.id id store.allNodes).lookup node.id

/-- A copy through the ids is the list itself. -/
theorem copied_rows (query : NodeQuery) : copied store query = store.nodesListed query := by
  rw [copied, filterMap_congr (g := some), filterMap_some]
  intro node listed
  rw [byId_lookup, IndexStore.nodeById_of_mem (IndexStore.mem_listed.mp listed).1]

theorem IndexStore.ordered_listed (query : NodeQuery) :
    orderCandidates (store.nodesListed query) = orderCandidates (store.allNodes.filter query.selects) := by
  apply orderCandidates_perm _ (store.listed_perm query)
  intro left leftIn right rightIn same
  exact store.keyed (mem_listed.mp leftIn).1 (mem_listed.mp rightIn).1 same

theorem byName_lookup (name : String) :
    ((NodeSnapshot.fromStore rules store).byName.lookup name).getD [] = orderCandidates (store.nodesByName name) := by
  show ((orderGroups (group Node.name store.allNodes)).lookup name).getD [] = _
  rw [orderGroups_lookup, group_lookup]
  exact (IndexStore.ordered_listed (.byName name)).symm

theorem byQualifiedName_lookup (name : String) :
    ((NodeSnapshot.fromStore rules store).byQualifiedName.lookup name).getD [] =
      orderCandidates (store.nodesByQualifiedName name) := by
  show ((orderGroups (group Node.qualifiedName store.allNodes)).lookup name).getD [] = _
  rw [orderGroups_lookup, group_lookup]
  exact (IndexStore.ordered_listed (.byQualifiedName name)).symm

theorem byLowerName_lookup (name : String) : ((NodeSnapshot.fromStore rules store).byLowerName.lookup name).getD [] =
      orderCandidates (store.allNodes.filter fun node => rules.toLowercase node.name = name) := by
  show ((orderGroups (group (fun node => rules.toLowercase node.name) store.allNodes)).lookup name).getD [] = _
  rw [orderGroups_lookup, group_lookup]

theorem byKind_lookup (kind : NodeKind) :
    ((NodeSnapshot.fromStore rules store).byKind.lookup kind).getD [] = store.nodesByKind kind := by
  have listed : kind ∈ NodeKind.all := by cases kind <;> decide
  have found : (NodeSnapshot.fromStore rules store).byKind.lookup kind = some (store.nodesByKind kind) := by
    show (index id (fun kind => copied store (.byKind kind)) NodeKind.all).lookup kind = _
    apply index_lookup _ listed rfl
    intro other _ same
    rw [← same]
    exact copied_rows (.byKind other)
  rw [found]
  rfl

/-- A path without nodes has no entry, and the store lists nothing for it. -/
theorem byFilePath_lookup (path : String) :
    ((NodeSnapshot.fromStore rules store).byFilePath.lookup path).getD [] = store.nodesByFilePath path := by
  have mem_paths : ∀ other : String, other ∈ ((index Node.id id store.allNodes).map fun entry =>
      entry.2.filePath).toFinset.sort (fun first second => first ≤ second) ↔
        ∃ node ∈ store.nodes, node.filePath = other := by
    intro other
    rw [Finset.mem_sort, mem_toFinset, mem_map]
    constructor
    · intro ⟨entry, listed, same⟩
      obtain ⟨node, stored, fresh⟩ := mem_index listed
      rw [fresh] at same
      exact ⟨node, IndexStore.mem_allNodes.mp stored, same⟩
    · intro ⟨node, stored, same⟩
      exact ⟨(node.id, node), mem_of_lookup ((byId_lookup node.id).trans (IndexStore.nodeById_of_mem stored)), same⟩
  by_cases held : ∃ node ∈ store.nodes, node.filePath = path
  · have found : (NodeSnapshot.fromStore rules store).byFilePath.lookup path = some (store.nodesByFilePath path) := by
      apply index_lookup _ ((mem_paths path).mpr held) (id_eq path)
      intro other _ same
      rw [← same]
      exact copied_rows (.byFilePath other)
    rw [found]
    rfl
  · have absent : (NodeSnapshot.fromStore rules store).byFilePath.lookup path = none := by
      apply index_lookup_absent
      intro other listed same
      exact held (same ▸ (mem_paths other).mp listed)
    rw [absent]
    have none : store.nodesByFilePath path = [] := by
      apply eq_nil_iff_forall_not_mem.mpr
      intro node listed
      obtain ⟨stored, selected⟩ := IndexStore.mem_listed.mp listed
      exact held ⟨node, stored, by simpa [NodeQuery.selects] using selected⟩
    rw [none]
    rfl

theorem allFilePaths_eq : (NodeSnapshot.fromStore rules store).allFilePaths = store.allFiles := by
  have once : store.allFiles.Nodup := (mergeSort_perm store.files _).nodup_iff.mpr store.fileKey
  apply (toFinset_sort _ once).mpr
  have sorted : store.allFiles.Pairwise fun first second => decide (first ≤ second) = true := by
    apply pairwise_mergeSort
    · intro left middle right before after
      simp only [decide_eq_true_eq] at before after ⊢
      exact le_trans before after
    · intro left right
      simpa using le_total left right
  exact sorted.imp fun before => of_decide_eq_true before

theorem mem_knownFilePaths (path : String) :
    path ∈ (NodeSnapshot.fromStore rules store).knownFilePaths ↔ (store.fileByPath path).isSome = true := by
  show path ∈ store.allFiles.toFinset ↔ _
  rw [mem_toFinset, IndexStore.allFiles, (mergeSort_perm store.files _).mem_iff]
  simp [IndexStore.fileByPath]

theorem filesByBasename_lookup (name : String) :
    ((NodeSnapshot.fromStore rules store).filesByBasename.lookup name).getD [] =
      ((group basename store.allFiles).lookup name).getD [] := by
  rw [← @allFilePaths_eq store rules]
  rfl

end SnapshotTables

section Adjacency
variable {store : IndexStore} {tree : ProjectTree} {rules : SourceRules} {node target : Node}

/-- The targets are the stored far ends of supertype edges. -/
theorem mem_storeTargets : target ∈ (StoreResolutionContext.mk store tree rules).edgeTargets node ↔
    ∃ edge ∈ store.edges, edge.source = node.id ∧ (edge.kind = .implements ∨ edge.kind = .extends_) ∧
      store.nodeById edge.target = some target := by
  simp only [StoreResolutionContext.edgeTargets, mem_flatMap, mem_filterMap, GraphStore.edgesBySourceKind,
    GraphStore.mem_listed, EdgeQuery.selects]
  constructor
  · rintro ⟨kind, member, edge, ⟨stored, selected⟩, found⟩
    simp only [Option.all_some, Bool.and_eq_true, decide_eq_true_eq] at selected
    exact ⟨edge, stored, selected.1, by simpa [selected.2] using member, found⟩
  · rintro ⟨edge, stored, source, kind, found⟩
    exact ⟨edge.kind, by simpa using kind, edge, ⟨stored, by simp [source]⟩, found⟩

/-- The targets of a node in the snapshot are those of its edges to supertypes. -/
theorem mem_snapshotTargets : target ∈ (SnapshotResolutionContext.fromStore store tree rules).edgeTargets node ↔
    ∃ edge ∈ store.edges, edge.source = node.id ∧ (edge.kind = .implements ∨ edge.kind = .extends_) ∧
      store.nodeById edge.target = some target := by
  have adjacent : ((buildEdgeAdjacency store).lookup node.id).getD [] = _ := group_lookup Edge.source _ node.id
  have known (id : String) : (NodeSnapshot.fromStore rules store).byId.lookup id = store.nodeById id := byId_lookup id
  simp only [SnapshotResolutionContext.edgeTargets, SnapshotResolutionContext.fromStore, adjacent, known,
    mem_filterMap, mem_filter, mem_flatMap, IndexStore.edgesByKind]
  constructor
  · rintro ⟨edge, ⟨⟨⟨_, _, stored, _⟩, source⟩, kind⟩, found⟩
    exact ⟨edge, stored, by simpa using source, by simpa using kind, found⟩
  · rintro ⟨edge, stored, source, kind, found⟩
    exact ⟨edge, ⟨⟨⟨edge.kind, by simpa using kind, stored, by simp⟩, by simpa using source⟩, by simpa using kind⟩,
      found⟩

/-- The two contexts reach the same targets in orders of their own. -/
theorem targetNames_agree (typeName : String) (node : Node) :
    (targetNames (SnapshotResolutionContext.fromStore store tree rules).edgeTargets typeName node).toFinset =
      (targetNames (StoreResolutionContext.mk store tree rules).edgeTargets typeName node).toFinset := by
  ext name
  simp only [targetNames, mem_toFinset, mem_filter, mem_map, mem_snapshotTargets, mem_storeTargets]

end Adjacency

section Plain
variable (pass : StoreResolutionContext)

namespace StoreResolutionContext

/- The plain answers are those that a context without any cache would give. -/

def named (name : String) : List Node := orderCandidates (pass.store.nodesByName name)

def extensionOf (node : Node) : Bool :=
  if node.language ≠ .swift ∨ node.kind ≠ .class_ then false
  else (pass.tree.readSourceFile node.filePath).any fun facts => pass.rules.declaresExtension facts node

def declared (node : Node) : List String :=
  ((pass.tree.readSourceFile node.filePath).map fun facts => pass.rules.headSupertypes facts node).getD []

def extendedOnly (name : String) : Bool :=
  let typed := (pass.named name).filter isSwiftType
  if typed.isEmpty then false else typed.all pass.extensionOf

def conforms (node : Node) : List String :=
  if node.language ≠ .swift then [] else (pass.declared node).filter pass.extendedOnly

def gathered (typeName : String) (language : Language) (supertypes : Finset String) (node : Node) : Finset String :=
  supertypes ∪ ((if language = .swift then pass.conforms node else []).filter fun name => name ≠ typeName).toFinset ∪
    (targetNames pass.edgeTargets typeName node).toFinset

def supertypes (typeName : String) (language : Language) : List String :=
  let typeNodes := (pass.named typeName).filter (bearsSupertypes language)
  if typeNodes.isEmpty then []
  else (typeNodes.foldl (pass.gathered typeName language) ∅).sort fun first second => first ≤ second

def mappings (path : String) (language : Language) : List ImportMapping :=
  ((pass.tree.readSourceFile path).map fun text => pass.rules.extractImportMappings text language).getD []

def reExported (path : String) (language : Language) : List ReExport :=
  ((pass.tree.readSourceFile path).map fun text =>
    pass.rules.extractReExports text (reExportLanguage path language)).getD []

def exists_ (path : String) : Bool :=
  (pass.store.fileByPath path).isSome ||
    (forwardSlashes path ≠ path && (pass.store.fileByPath (forwardSlashes path)).isSome) || pass.tree.probe path

/-- The contexts differ in the lists that they keep for a lower name. -/
def plainAnswer (lowered : String → List Node) : Query → Answer
  | .nodesInFile path => .nodes (pass.store.nodesByFilePath path)
  | .nodesByName name => .nodes (pass.named name)
  | .nodesByLowerName name => .nodes (lowered name)
  | .nodesByQualifiedName name => .nodes (orderCandidates (pass.store.nodesByQualifiedName name))
  | .nodesByKind kind => .nodes (pass.store.nodesByKind kind)
  | .nodeById id => .node (pass.store.nodeById id)
  | .knownNodeNames => .names pass.store.allNodeNames
  | .fileExists path => .flag (pass.exists_ path)
  | .isIndexedFile path => .flag (pass.store.fileByPath (forwardSlashes path)).isSome
  | .readFile path => .text (pass.tree.readSourceFile path)
  | .sourceFacts path => .text (pass.tree.readSourceFile path)
  | .allFiles => .names pass.store.allFiles
  | .filesByBasename name => .names (((group basename pass.store.allFiles).lookup name).getD [])
  | .supertypes typeName language => .names (pass.supertypes typeName language)
  | .importMappings path language => .mappings (pass.mappings path language)
  | .reExports path language => .reExports (pass.reExported path language)

def storeLowered (name : String) : List Node := orderCandidates (pass.store.nodesByLowerName name)

def snapshotLowered (name : String) : List Node :=
  orderCandidates (pass.store.allNodes.filter fun node => pass.rules.toLowercase node.name = name)

/-- A value of a node is known by the node's id. -/
def OfNode {V : Type} (value : Node → V) (id : String) (found : V) : Prop :=
  ∀ node ∈ pass.store.nodes, node.id = id → found = value node

/-- The tables of Swift hold what is extracted from the files of their keys. -/
structure FitsSwift (tables : SwiftTables) : Prop where
  extension : Fits (pass.OfNode pass.extensionOf) tables.extension
  clauses : Fits (pass.OfNode pass.declared) tables.clauses
  conformances : Fits (pass.OfNode pass.conforms) tables.conformances

/-- A context serves a pass when its own reads are plain and its Swift tables fit. -/
structure Serves {σ : Type} (kept : σ → Prop) (context : ResolutionContext σ) : Prop where
  names : ∀ name, Yields kept (context.getNodesByName name) (· = pass.named name)
  facts : ∀ path, Yields kept (context.sourceFacts path) (· = pass.tree.readSourceFile path)
  tables : context.swiftTables.Guarded kept pass.FitsSwift

end StoreResolutionContext

end Plain

section SwiftTypes
open StoreResolutionContext
variable {σ : Type} {pass : StoreResolutionContext} {kept : σ → Prop} {context : ResolutionContext σ} {node : Node}

theorem StoreResolutionContext.OfNode.self {V : Type} {value : Node → V} (stored : node ∈ pass.store.nodes) :
    pass.OfNode value node.id (value node) := by
  intro other member same
  rw [pass.store.keyed member stored same]

theorem StoreResolutionContext.Serves.extensionTable (serves : pass.Serves kept context) :
    context.extension.Guarded kept (Fits (pass.OfNode pass.extensionOf)) := by
  constructor
  · intro state held
    exact (serves.tables.holds state held).extension
  · intro state part held fits
    exact serves.tables.kept state _ held { serves.tables.holds state held with extension := fits }

theorem StoreResolutionContext.Serves.clausesTable (serves : pass.Serves kept context) :
    context.clauses.Guarded kept (Fits (pass.OfNode pass.declared)) := by
  constructor
  · intro state held
    exact (serves.tables.holds state held).clauses
  · intro state part held fits
    exact serves.tables.kept state _ held { serves.tables.holds state held with clauses := fits }

theorem StoreResolutionContext.Serves.conformancesTable (serves : pass.Serves kept context) :
    context.conformances.Guarded kept (Fits (pass.OfNode pass.conforms)) := by
  constructor
  · intro state held
    exact (serves.tables.holds state held).conformances
  · intro state part held fits
    exact serves.tables.kept state _ held { serves.tables.holds state held with conformances := fits }

theorem mem_named {name : String} (listed : node ∈ pass.named name) : node ∈ pass.store.nodes :=
  (IndexStore.mem_listed.mp (mem_orderCandidates.mp listed)).1

section

variable (serves : pass.Serves kept context)
include serves

theorem isSwiftExtension_yields (stored : node ∈ pass.store.nodes) :
    Yields kept (isSwiftExtension pass.rules context node) (· = pass.extensionOf node) := by
  unfold isSwiftExtension
  by_cases other : node.language ≠ .swift ∨ node.kind ≠ .class_
  · rw [if_pos other]
    exact .pure (by rw [extensionOf, if_pos other])
  · rw [if_neg other]
    apply plainMemo_yields serves.extensionTable _ (.self stored) fun found known => known node stored rfl
    apply (serves.facts node.filePath).andThen
    exact .pure (by rw [extensionOf, if_neg other])

theorem declaredSupertypes_yields (stored : node ∈ pass.store.nodes) :
    Yields kept (declaredSupertypes pass.rules context node) (· = pass.declared node) := by
  apply plainMemo_yields serves.clausesTable _ (.self stored) fun found known => known node stored rfl
  apply (serves.facts node.filePath).andThen
  exact .pure rfl

theorem onlyExtended_yields (name : String) :
    Yields kept (onlyExtended pass.rules context name) (· = pass.extendedOnly name) := by
  apply (serves.names name).andThen
  rw [extendedOnly]
  by_cases absent : ((pass.named name).filter isSwiftType).isEmpty = true
  · rw [if_pos absent, if_pos absent]
    exact .pure rfl
  · rw [if_neg absent, if_neg absent]
    apply Yields.allM
    intro node listed
    exact isSwiftExtension_yields serves (mem_named (mem_filter.mp listed).1)

theorem extendedConformances_yields (stored : node ∈ pass.store.nodes) :
    Yields kept (extendedConformances pass.rules context node) (· = pass.conforms node) := by
  unfold extendedConformances
  by_cases other : node.language ≠ .swift
  · rw [if_pos other]
    exact .pure (by rw [conforms, if_pos other])
  · rw [if_neg other]
    apply plainMemo_yields serves.conformancesTable _ (.self stored) fun found known => known node stored rfl
    apply (declaredSupertypes_yields serves stored).andThen
    rw [conforms, if_neg other]
    exact .filterM _ fun name _ => onlyExtended_yields serves name

theorem conformancesFor_yields (stored : node ∈ pass.store.nodes)
    (language : Language) : Yields kept (conformancesFor pass.rules context language node)
      (· = if language = .swift then pass.conforms node else []) := by
  unfold conformancesFor
  by_cases swift : language = .swift
  · rw [if_pos swift, if_pos swift]
    exact extendedConformances_yields serves stored
  · rw [if_neg swift, if_neg swift]
    exact .pure rfl

theorem gatherSupertypes_yields (stored : node ∈ pass.store.nodes)
    {targets : Node → List Node} {typeName : String} {language : Language} {start : Finset String}
    (same : (targetNames targets typeName node).toFinset = (targetNames pass.edgeTargets typeName node).toFinset) :
    Yields kept (gatherSupertypes pass.rules context targets typeName language start node)
      (· = pass.gathered typeName language start node) := by
  apply (conformancesFor_yields serves stored language).andThen
  rw [same]
  exact .pure rfl

/-- Any targets with the names of the store's own give the plain supertypes. -/
theorem supertypesThrough_yields {targets : Node → List Node} {typeName : String}
    {language : Language} (same : ∀ node, (targetNames targets typeName node).toFinset =
      (targetNames pass.edgeTargets typeName node).toFinset) :
    Yields kept (supertypesThrough pass.rules context targets typeName language)
    (· = pass.supertypes typeName language) := by
  apply (serves.names typeName).andThen
  rw [StoreResolutionContext.supertypes]
  by_cases absent : ((pass.named typeName).filter (bearsSupertypes language)).isEmpty = true
  · rw [if_pos absent, if_pos absent]
    exact .pure rfl
  · rw [if_neg absent, if_neg absent]
    have united : Yields kept (((pass.named typeName).filter (bearsSupertypes language)).foldlM
        (gatherSupertypes pass.rules context targets typeName language) ∅)
        (· = ((pass.named typeName).filter (bearsSupertypes language)).foldl (pass.gathered typeName language) ∅) := by
      apply Yields.foldlM
      intro node listed start
      exact gatherSupertypes_yields serves (mem_named (mem_filter.mp listed).1) (same node)
    exact united.andThen (.pure rfl)

end

end SwiftTypes

section Invariants
open StoreResolutionContext
variable (pass : StoreResolutionContext) (asked : Query → Prop)

/-- A cached extraction was made for some language that was asked of its file. -/
def KnownMappings (path : String) (found : List ImportMapping) : Prop :=
  ∃ language, asked (.importMappings path language) ∧ found = pass.mappings path language

def KnownReExports (path : String) (found : List ReExport) : Prop :=
  ∃ language, asked (.reExports path language) ∧ found = pass.reExported path language

/-- Any two languages asked of one file find the same in its text. -/
structure LanguagesAgree : Prop where
  mappings : ∀ path first second, asked (.importMappings path first) → asked (.importMappings path second) →
    ∀ text, pass.tree.readSourceFile path = some text →
      pass.rules.extractImportMappings text first = pass.rules.extractImportMappings text second
  reExports : ∀ path first second, asked (.reExports path first) → asked (.reExports path second) →
    ∀ text, pass.tree.readSourceFile path = some text →
      pass.rules.extractReExports text (reExportLanguage path first) =
        pass.rules.extractReExports text (reExportLanguage path second)

/-- Every cache of the store's context holds what the store answers. -/
structure StoreKept (caches : StoreCaches) : Prop where
  nodeCache : caches.nodeCache.Holds fun path found => found = pass.store.nodesByFilePath path
  fileCache : caches.fileCache.Holds fun path found => found = pass.tree.readSourceFile path
  sourceFactsCache : caches.sourceFactsCache.Holds fun path found => found = pass.tree.readSourceFile path
  importMappingCache : caches.importMappingCache.Holds (KnownMappings pass asked)
  reExportCache : caches.reExportCache.Holds (KnownReExports pass asked)
  nameCache : caches.nameCache.Holds fun name found => found = pass.named name
  lowerNameCache : caches.lowerNameCache.Holds fun name found => found = pass.storeLowered name
  qualifiedNameCache : caches.qualifiedNameCache.Holds fun name found =>
    found = orderCandidates (pass.store.nodesByQualifiedName name)
  allFiles : ∀ found, caches.allFiles = some found → found = pass.store.allFiles
  filesByBasename : ∀ found, caches.filesByBasename = some found → found = group basename pass.store.allFiles
  fileExists : Fits (fun path found => found = pass.exists_ path) caches.fileExists
  nodesById : Fits (fun id found => found = pass.store.nodeById id) caches.nodesById
  swiftTables : pass.FitsSwift caches.swiftTables

/-- Every cache of the snapshot's context holds what the snapshot answers. -/
structure SnapshotKept (caches : SnapshotCaches) : Prop where
  fileContents : caches.fileContents.Holds fun path found => found = pass.tree.readSourceFile path
  sourceFacts : caches.sourceFacts.Holds fun path found => found = pass.tree.readSourceFile path
  importMappings : caches.importMappings.Holds (KnownMappings pass asked)
  reExports : caches.reExports.Holds (KnownReExports pass asked)
  fsExists : caches.fsExists.Holds fun path found => found = pass.tree.probe path
  swiftTables : pass.FitsSwift caches.swiftTables

variable {pass asked}

theorem StoreResolutionContext.FitsSwift.new : pass.FitsSwift SwiftTables.new := by
  constructor <;> intro key value member <;> cases member

theorem StoreKept.new : StoreKept pass asked StoreCaches.new where
  nodeCache := LruCache.holds_new defaultCacheLimit rfl
  fileCache := LruCache.holds_new contentLimit rfl
  sourceFactsCache := LruCache.holds_new contentLimit rfl
  importMappingCache := LruCache.holds_new defaultCacheLimit rfl
  reExportCache := LruCache.holds_new defaultCacheLimit rfl
  nameCache := LruCache.holds_new defaultCacheLimit rfl
  lowerNameCache := LruCache.holds_new defaultCacheLimit rfl
  qualifiedNameCache := LruCache.holds_new defaultCacheLimit rfl
  allFiles _ absent := by cases absent
  filesByBasename _ absent := by cases absent
  fileExists _ _ member := by cases member
  nodesById _ _ member := by cases member
  swiftTables := .new

theorem SnapshotKept.new : SnapshotKept pass asked SnapshotCaches.new where
  fileContents := BoundedFileMemo.holds_new contentLimit rfl
  sourceFacts := BoundedFileMemo.holds_new contentLimit rfl
  importMappings := BoundedFileMemo.holds_new defaultCacheLimit rfl
  reExports := BoundedFileMemo.holds_new defaultCacheLimit rfl
  fsExists := BoundedFileMemo.holds_new fileExistsMemoLimit rfl
  swiftTables := .new

theorem LanguagesAgree.known_mappings (agree : LanguagesAgree pass asked) {path : String} {language : Language}
    (wanted : asked (.importMappings path language)) {found : List ImportMapping}
    (known : KnownMappings pass asked path found) : found = pass.mappings path language := by
  obtain ⟨other, before, same⟩ := known
  rw [same, StoreResolutionContext.mappings, StoreResolutionContext.mappings]
  cases content : pass.tree.readSourceFile path with
  | none => rfl
  | some text => exact agree.mappings path other language before wanted text content

theorem LanguagesAgree.known_reExports (agree : LanguagesAgree pass asked) {path : String} {language : Language}
    (wanted : asked (.reExports path language)) {found : List ReExport}
    (known : KnownReExports pass asked path found) : found = pass.reExported path language := by
  obtain ⟨other, before, same⟩ := known
  rw [same, reExported, reExported]
  cases content : pass.tree.readSourceFile path with
  | none => rfl
  | some text => exact agree.reExports path other language before wanted text content

end Invariants

section StoreAnswers
open StoreResolutionContext StoreCaches
variable {pass : StoreResolutionContext} {asked : Query → Prop}

theorem store_readFile (path : String) :
    Yields (StoreKept pass asked) (pass.readFile path) (· = pass.tree.readSourceFile path) := by
  have guarded : fileCacheField.Guarded (StoreKept pass asked) _ :=
    ⟨fun _ kept => kept.fileCache, fun _ _ kept fine => { kept with fileCache := fine }⟩
  exact LruCache.memo_yields guarded (Yields.pure rfl) rfl fun _ known => known

theorem store_serves : pass.Serves (StoreKept pass asked) pass.resolutionContext where
  names name := by
    have guarded : nameField.Guarded (StoreKept pass asked) _ :=
      ⟨fun _ kept => kept.nameCache, fun _ _ kept fine => { kept with nameCache := fine }⟩
    exact LruCache.memo_yields guarded (Yields.pure rfl) rfl fun _ known => known
  facts path := by
    have guarded : sourceFactsField.Guarded (StoreKept pass asked) _ :=
      ⟨fun _ kept => kept.sourceFactsCache, fun _ _ kept fine => { kept with sourceFactsCache := fine }⟩
    exact LruCache.memo_yields guarded (store_readFile path) rfl fun _ known => known
  tables := ⟨fun _ kept => kept.swiftTables, fun _ _ kept fine => { kept with swiftTables := fine }⟩

theorem store_allFiles : Yields (StoreKept pass asked) pass.cachedAllFiles (· = pass.store.allFiles) := by
  have guarded : allFilesField.Guarded (StoreKept pass asked) fun known =>
      ∀ found, known = some found → found = pass.store.allFiles :=
    ⟨fun _ kept => kept.allFiles, fun _ _ kept fine => { kept with allFiles := fine }⟩
  exact onceMemo_yields guarded (.pure rfl)

theorem store_importMappings (agree : LanguagesAgree pass asked) {path : String} {language : Language}
    (wanted : asked (.importMappings path language)) :
    Yields (StoreKept pass asked) (pass.getImportMappings path language) (· = pass.mappings path language) := by
  have guarded : importMappingField.Guarded (StoreKept pass asked) _ :=
    ⟨fun _ kept => kept.importMappingCache, fun _ _ kept fine => { kept with importMappingCache := fine }⟩
  apply LruCache.memo_yields guarded _ ⟨language, wanted, rfl⟩ fun _ known => agree.known_mappings wanted known
  apply (store_readFile path).andThen
  rw [StoreResolutionContext.mappings]
  cases pass.tree.readSourceFile path <;> exact .pure rfl

theorem store_reExports (agree : LanguagesAgree pass asked) {path : String} {language : Language}
    (wanted : asked (.reExports path language)) :
    Yields (StoreKept pass asked) (pass.getReExports path language) (· = pass.reExported path language) := by
  have guarded : reExportField.Guarded (StoreKept pass asked) _ :=
    ⟨fun _ kept => kept.reExportCache, fun _ _ kept fine => { kept with reExportCache := fine }⟩
  apply LruCache.memo_yields guarded _ ⟨language, wanted, rfl⟩ fun _ known => agree.known_reExports wanted known
  apply (store_readFile path).andThen
  rw [reExported]
  cases pass.tree.readSourceFile path <;> exact .pure rfl

/-- The answers of the store context are the plain ones. -/
theorem store_answer (agree : LanguagesAgree pass asked) (query : Query) (wanted : asked query) :
    Yields (StoreKept pass asked) (pass.answer query) (· = pass.plainAnswer pass.storeLowered query) := by
  cases query with
  | nodesInFile path =>
    have guarded : nodeCacheField.Guarded (StoreKept pass asked) _ :=
      ⟨fun _ kept => kept.nodeCache, fun _ _ kept fine => { kept with nodeCache := fine }⟩
    exact (LruCache.memo_yields guarded (Yields.pure rfl) rfl fun _ known => known).map_eq
  | nodesByName name => exact (store_serves.names name).map_eq
  | nodesByLowerName name =>
    have guarded : lowerNameField.Guarded (StoreKept pass asked) _ :=
      ⟨fun _ kept => kept.lowerNameCache, fun _ _ kept fine => { kept with lowerNameCache := fine }⟩
    exact (LruCache.memo_yields guarded (Yields.pure rfl) rfl fun _ known => known).map_eq
  | nodesByQualifiedName name =>
    have guarded : qualifiedNameField.Guarded (StoreKept pass asked) _ :=
      ⟨fun _ kept => kept.qualifiedNameCache, fun _ _ kept fine => { kept with qualifiedNameCache := fine }⟩
    exact (LruCache.memo_yields guarded (Yields.pure rfl) rfl fun _ known => known).map_eq
  | nodesByKind kind => exact .map_eq (.pure rfl)
  | nodeById id =>
    have guarded : nodesByIdField.Guarded (StoreKept pass asked) _ :=
      ⟨fun _ kept => kept.nodesById, fun _ _ kept fine => { kept with nodesById := fine }⟩
    exact (tableMemo_yields guarded (.pure rfl) (fun _ fits => fits_setRecent fits rfl) fun _ known =>
      known).map_eq
  | knownNodeNames => exact .map_eq (.pure rfl)
  | fileExists path =>
    have guarded : fileExistsField.Guarded (StoreKept pass asked) _ :=
      ⟨fun _ kept => kept.fileExists, fun _ _ kept fine => { kept with fileExists := fine }⟩
    exact (tableMemo_yields guarded (.pure rfl) (fun _ fits => fits_setRestarting fits rfl) fun _ known =>
      known).map_eq
  | isIndexedFile path => exact .map_eq (.pure rfl)
  | readFile path => exact (store_readFile path).map_eq
  | sourceFacts path => exact (store_serves.facts path).map_eq
  | allFiles => exact store_allFiles.map_eq
  | filesByBasename name =>
    have guarded : filesByBasenameField.Guarded (StoreKept pass asked) fun known =>
        ∀ found, known = some found → found = group basename pass.store.allFiles :=
      ⟨fun _ kept => kept.filesByBasename, fun _ _ kept fine => { kept with filesByBasename := fine }⟩
    have grouped : Yields (StoreKept pass asked) (do pure (group basename (← pass.cachedAllFiles)))
        (· = group basename pass.store.allFiles) := store_allFiles.andThen (.pure rfl)
    apply Yields.map_eq
    apply (onceMemo_yields guarded grouped).andThen
    exact .pure rfl
  | supertypes typeName language => exact (supertypesThrough_yields store_serves fun _ => rfl).map_eq
  | importMappings path language => exact (store_importMappings agree wanted).map_eq
  | reExports path language => exact (store_reExports agree wanted).map_eq

end StoreAnswers

section SnapshotAnswers
open StoreResolutionContext SnapshotResolutionContext SnapshotCaches
variable {pass : StoreResolutionContext} {asked : Query → Prop}

/-- The snapshot context of a pass is built from its store. -/
def StoreResolutionContext.snapshotContext (pass : StoreResolutionContext) : SnapshotResolutionContext :=
  .fromStore pass.store pass.tree pass.rules

theorem snapshot_readFile (path : String) :
    Yields (SnapshotKept pass asked) (pass.snapshotContext.readFile path) (· = pass.tree.readSourceFile path) := by
  have guarded : fileContentsField.Guarded (SnapshotKept pass asked) _ :=
    ⟨fun _ kept => kept.fileContents, fun _ _ kept fine => { kept with fileContents := fine }⟩
  exact BoundedFileMemo.memo_yields guarded (Yields.pure rfl) rfl fun _ known => known

theorem snapshot_serves : pass.Serves (SnapshotKept pass asked) pass.snapshotContext.resolutionContext where
  names name := .pure (byName_lookup name)
  facts path := by
    have guarded : sourceFactsField.Guarded (SnapshotKept pass asked) _ :=
      ⟨fun _ kept => kept.sourceFacts, fun _ _ kept fine => { kept with sourceFacts := fine }⟩
    exact BoundedFileMemo.memo_yields guarded (snapshot_readFile path) rfl fun _ known => known
  tables := ⟨fun _ kept => kept.swiftTables, fun _ _ kept fine => { kept with swiftTables := fine }⟩

theorem snapshot_known (path : String) :
    path ∈ pass.snapshotContext.snapshot.knownFilePaths ↔ (pass.store.fileByPath path).isSome = true :=
  mem_knownFilePaths path

/-- The snapshot answers whether a file exists, whatever was asked before. -/
theorem snapshot_fileExists (path : String) :
    Yields (SnapshotKept pass asked) (pass.snapshotContext.fileExists path) (· = pass.exists_ path) := by
  unfold SnapshotResolutionContext.fileExists
  by_cases stored : path ∈ pass.snapshotContext.snapshot.knownFilePaths
  · rw [if_pos stored]
    exact .pure (by rw [exists_, (snapshot_known path).mp stored]; rfl)
  · rw [if_neg stored]
    rw [snapshot_known, Bool.not_eq_true] at stored
    by_cases slashed : forwardSlashes path ≠ path ∧ forwardSlashes path ∈ pass.snapshotContext.snapshot.knownFilePaths
    · rw [if_pos slashed]
      have found := (snapshot_known _).mp slashed.2
      exact .pure (by rw [exists_, stored, found, decide_eq_true slashed.1]; rfl)
    · rw [if_neg slashed]
      have guarded : fsExistsField.Guarded (SnapshotKept pass asked) _ :=
        ⟨fun _ kept => kept.fsExists, fun _ _ kept fine => { kept with fsExists := fine }⟩
      have probed : pass.exists_ path = pass.tree.probe path := by
        rw [snapshot_known] at slashed
        have absent : (decide (forwardSlashes path ≠ path) && (pass.store.fileByPath (forwardSlashes path)).isSome) =
          false := by
          simpa using slashed
        rw [exists_, stored, absent]
        rfl
      rw [probed]
      exact BoundedFileMemo.memo_yields guarded (Yields.pure rfl) rfl fun _ known => known

theorem snapshot_importMappings (agree : LanguagesAgree pass asked) {path : String} {language : Language}
    (wanted : asked (.importMappings path language)) :
    Yields (SnapshotKept pass asked) (pass.snapshotContext.getImportMappings path language)
      (· = pass.mappings path language) := by
  have guarded : importMappingsField.Guarded (SnapshotKept pass asked) _ :=
    ⟨fun _ kept => kept.importMappings, fun _ _ kept fine => { kept with importMappings := fine }⟩
  apply BoundedFileMemo.memo_yields guarded _ ⟨language, wanted, rfl⟩ fun _ known => agree.known_mappings wanted known
  apply (snapshot_readFile path).andThen
  exact .pure rfl

theorem snapshot_reExports (agree : LanguagesAgree pass asked) {path : String} {language : Language}
    (wanted : asked (.reExports path language)) :
    Yields (SnapshotKept pass asked) (pass.snapshotContext.getReExports path language)
      (· = pass.reExported path language) := by
  have guarded : reExportsField.Guarded (SnapshotKept pass asked) _ :=
    ⟨fun _ kept => kept.reExports, fun _ _ kept fine => { kept with reExports := fine }⟩
  apply BoundedFileMemo.memo_yields guarded _ ⟨language, wanted, rfl⟩ fun _ known => agree.known_reExports wanted known
  apply (snapshot_readFile path).andThen
  rw [reExported]
  cases pass.tree.readSourceFile path <;> exact .pure rfl

/-- The answers of the snapshot context are the plain ones too, with lower names of its own. -/
theorem snapshot_answer (agree : LanguagesAgree pass asked) (query : Query) (wanted : asked query) :
    Yields (SnapshotKept pass asked) (pass.snapshotContext.answer query)
      (· = pass.plainAnswer pass.snapshotLowered query) := by
  cases query with
  | nodesInFile path => exact .map_eq (.pure (byFilePath_lookup path))
  | nodesByName name => exact (snapshot_serves.names name).map_eq
  | nodesByLowerName name => exact .map_eq (.pure (byLowerName_lookup name))
  | nodesByQualifiedName name => exact .map_eq (.pure (byQualifiedName_lookup name))
  | nodesByKind kind => exact .map_eq (.pure (byKind_lookup kind))
  | nodeById id => exact .map_eq (.pure (byId_lookup id))
  | knownNodeNames => exact .map_eq (.pure rfl)
  | fileExists path => exact (snapshot_fileExists path).map_eq
  | isIndexedFile path =>
    apply Yields.map_eq
    apply Yields.pure
    apply Bool.eq_iff_iff.mpr
    rw [decide_eq_true_iff]
    exact snapshot_known (forwardSlashes path)
  | readFile path => exact (snapshot_readFile path).map_eq
  | sourceFacts path => exact (snapshot_serves.facts path).map_eq
  | allFiles => exact .map_eq (.pure allFilePaths_eq)
  | filesByBasename name => exact .map_eq (.pure (filesByBasename_lookup name))
  | supertypes typeName language =>
    exact (supertypesThrough_yields snapshot_serves fun node => targetNames_agree typeName node).map_eq
  | importMappings path language => exact (snapshot_importMappings agree wanted).map_eq
  | reExports path language => exact (snapshot_reExports agree wanted).map_eq

end SnapshotAnswers

section Sequences
open StoreResolutionContext
variable (pass : StoreResolutionContext) (asked : Query → Prop)

namespace StoreResolutionContext

def storeAnswers (queries : List Query) : List Answer :=
  ((queries.mapM pass.answer).run StoreCaches.new).run.1

def snapshotAnswers (queries : List Query) : List Answer :=
  ((queries.mapM pass.snapshotContext.answer).run SnapshotCaches.new).run.1

end StoreResolutionContext

/-- The resolution of a reference chooses each query by the answers before it. -/
inductive Resolution where
  | done (edges : List Edge)
  | ask (query : Query) (next : Answer → Resolution)

/-- The queries of other workers come between those of a resolution. -/
def Resolution.run {σ : Type} (answer : Query → StateM σ Answer) (others : Nat → List Query) :
    Nat → Resolution → StateM σ (List Edge)
  | _, .done edges => pure edges
  | turn, .ask query next => do
    let _ ← (others turn).mapM answer
    let found ← answer query
    (next found).run answer others (turn + 1)

/-- Every query that the resolution can come to is among those asked. -/
def Resolution.Within : Resolution → Prop
  | .done _ => True
  | .ask query next => asked query ∧ ∀ found, (next found).Within

/-- A query gets one answer wherever it stands in either sequence, and a resolution finds one list of edges. -/
structure ContextsAgree : Prop where
  answers : ∀ first second : List Query, (∀ query ∈ first, asked query) → (∀ query ∈ second, asked query) →
    ∀ (here there : Nat) (query : Query), first[here]? = some query → second[there]? = some query →
      (pass.storeAnswers first)[here]? = (pass.snapshotAnswers second)[there]?
  edges : ∀ (resolution : Resolution) (before after : Nat → List Query), resolution.Within asked →
    (∀ turn, ∀ query ∈ before turn, asked query) → (∀ turn, ∀ query ∈ after turn, asked query) →
      ((resolution.run pass.answer before 0).run StoreCaches.new).run.1 =
        ((resolution.run pass.snapshotContext.answer after 0).run SnapshotCaches.new).run.1

/-- A stored name folds to the lower name in both ways or in neither. -/
def LowerNamesAgree : Prop :=
  ∀ name, asked (.nodesByLowerName name) → ∀ node ∈ pass.store.nodes,
    (lower node.name = lower name ↔ pass.rules.toLowercase node.name = name)

variable {pass asked}

theorem storeAnswers_plain (agree : LanguagesAgree pass asked) {queries : List Query}
    (within : ∀ query ∈ queries, asked query) :
    pass.storeAnswers queries = queries.map (pass.plainAnswer pass.storeLowered) := by
  have answered : Yields (StoreKept pass asked) (queries.mapM pass.answer) (· = _) :=
    .mapM queries fun query member => store_answer agree query (within query member)
  exact (answered .new .new).1

theorem snapshotAnswers_plain (agree : LanguagesAgree pass asked) {queries : List Query}
    (within : ∀ query ∈ queries, asked query) :
    pass.snapshotAnswers queries = queries.map (pass.plainAnswer pass.snapshotLowered) := by
  have answered : Yields (SnapshotKept pass asked) (queries.mapM pass.snapshotContext.answer) (· = _) :=
    .mapM queries fun query member => snapshot_answer agree query (within query member)
  exact (answered .new .new).1

/-- The edges that a resolution finds when every query has a fixed answer. -/
def Resolution.found (answer : Query → Answer) : Resolution → List Edge
  | .done edges => edges
  | .ask query next => (next (answer query)).found answer

/-- A run over memoised answers gives what the plain answers give. -/
theorem Resolution.run_yields {σ : Type} {kept : σ → Prop} {answer : Query → StateM σ Answer} {plain : Query → Answer}
    (answers : ∀ query, asked query → Yields kept (answer query) (· = plain query)) {others : Nat → List Query}
    (within : ∀ turn, ∀ query ∈ others turn, asked query) (resolution : Resolution) (inside : resolution.Within asked)
    (turn : Nat) : Yields kept (resolution.run answer others turn) (· = resolution.found plain) := by
  induction resolution generalizing turn with
  | done edges => exact .pure rfl
  | ask query next ih =>
    have between := Yields.mapM (others turn) fun query member => answers query (within turn query member)
    apply between.andThen
    apply (answers query inside.1).andThen
    exact ih (plain query) (inside.2 _) (turn + 1)

/-- Both contexts list the same nodes of a lower name exactly when both lower-casings agree on it. -/
theorem lowered_eq_iff (name : String) : pass.storeLowered name = pass.snapshotLowered name ↔
    ∀ node ∈ pass.store.nodes, (lower node.name = lower name ↔ pass.rules.toLowercase node.name = name) := by
  have ordered : pass.storeLowered name =
    orderCandidates (pass.store.allNodes.filter (NodeQuery.byLowerName name).selects) :=
    IndexStore.ordered_listed (.byLowerName name)
  rw [ordered, snapshotLowered]
  constructor
  · intro same node stored
    have listed := IndexStore.mem_allNodes.mpr stored
    have member : node ∈ pass.store.allNodes.filter (NodeQuery.byLowerName name).selects ↔
        node ∈ pass.store.allNodes.filter fun node => pass.rules.toLowercase node.name = name := by
      rw [← mem_orderCandidates, same, mem_orderCandidates]
    simpa [mem_filter, listed, NodeQuery.selects] using member
  · intro agree
    congr 1
    apply filter_congr
    intro node listed
    exact decide_eq_decide.mpr (agree node (IndexStore.mem_allNodes.mp listed))

/-- One language for each file agrees with itself. -/
theorem LanguagesAgree.alone (query : Query) : LanguagesAgree pass (· = query) where
  mappings path first second wanted other text _ := by
    cases wanted.trans other.symm
    rfl
  reExports path first second wanted other text _ := by
    cases wanted.trans other.symm
    rfl

/-- The second answer of a pair comes from the caches that the first one leaves. -/
theorem storeAnswers_second (first second : Query) : (pass.storeAnswers [first, second])[1]? =
    some ((pass.answer second).run ((pass.answer first).run StoreCaches.new).run.2).run.1 := by
  rw [storeAnswers, mapM_cons, mapM_cons, mapM_nil]
  rfl

/-- The store context keeps the first extraction of a file for every later language. -/
theorem storeAnswers_mappings (path : String) (first second : Language) :
    (pass.storeAnswers [.importMappings path first, .importMappings path second])[1]? =
      some (.mappings (pass.mappings path first)) := by
  have fresh : ((pass.getImportMappings path first).run StoreCaches.new).run.1 = pass.mappings path first :=
    (store_importMappings (LanguagesAgree.alone (.importMappings path first)) rfl StoreCaches.new StoreKept.new).1
  have again : ((pass.getImportMappings path second).run
      ((pass.getImportMappings path first).run StoreCaches.new).run.2).run.1 = _ :=
    LruCache.memo_again (fun _ _ => rfl) _ _
  rw [storeAnswers_second]
  show some (Answer.mappings _) = _
  exact congrArg (fun found => some (Answer.mappings found)) (again.trans fresh)

theorem storeAnswers_reExports (path : String) (first second : Language) :
    (pass.storeAnswers [.reExports path first, .reExports path second])[1]? =
      some (.reExports (pass.reExported path first)) := by
  have fresh : ((pass.getReExports path first).run StoreCaches.new).run.1 = pass.reExported path first :=
    (store_reExports (LanguagesAgree.alone (.reExports path first)) rfl StoreCaches.new StoreKept.new).1
  have again : ((pass.getReExports path second).run
      ((pass.getReExports path first).run StoreCaches.new).run.2).run.1 = _ :=
    LruCache.memo_again (fun _ _ => rfl) _ _
  rw [storeAnswers_second]
  show some (Answer.reExports _) = _
  exact congrArg (fun found => some (Answer.reExports found)) (again.trans fresh)

/-- The contexts agree where they lower names alike and read languages alike. -/
theorem ContextsAgree.of_conditions (lowers : LowerNamesAgree pass asked) (languages : LanguagesAgree pass asked) :
    ContextsAgree pass asked := by
  have plain : ∀ query, asked query →
      pass.plainAnswer pass.storeLowered query = pass.plainAnswer pass.snapshotLowered query := by
    intro query wanted
    cases query with
    | nodesByLowerName name => exact congrArg Answer.nodes ((lowered_eq_iff name).mpr (lowers name wanted))
    | _ => rfl
  constructor
  · intro first second within inside here there query atHere atThere
    rw [storeAnswers_plain languages within, snapshotAnswers_plain languages inside, getElem?_map,
      getElem?_map,
      atHere, atThere, Option.map_some, Option.map_some, plain query (within query (mem_of_getElem? atHere))]
  · intro resolution before after inside within other
    have stored :=
      Resolution.run_yields (store_answer languages) within resolution inside 0 StoreCaches.new StoreKept.new
    have copied := Resolution.run_yields
      (fun query wanted => (snapshot_answer languages query wanted).mono fun _ same =>
        same.trans (plain query wanted).symm)
      other resolution inside 0 .new .new
    exact stored.1.trans copied.1.symm

/-- Two sequences of the queries that a pass asks get the same answers exactly when lower names fold alike and no
file is read in two languages that find different imports in it. -/
theorem contexts_agree_iff (pass : StoreResolutionContext) (asked : Query → Prop) :
    ContextsAgree pass asked ↔ LowerNamesAgree pass asked ∧ LanguagesAgree pass asked := by
  constructor
  · intro agree
    have single (query : Query) (wanted : asked query) : pass.plainAnswer pass.storeLowered query =
        pass.plainAnswer pass.snapshotLowered query := by
      have same := agree.answers [query] [query] (by simpa using wanted) (by simpa using wanted) 0 0 query rfl rfl
      rw [storeAnswers_plain (LanguagesAgree.alone query) (by simp),
        snapshotAnswers_plain (LanguagesAgree.alone query) (by simp)] at same
      exact Option.some.inj same
    have after (first second : Query) (earlier : asked first) (wanted : asked second) :
        (pass.storeAnswers [first, second])[1]? = some (pass.plainAnswer pass.snapshotLowered second) := by
      have same := agree.answers [first, second] [second] (by simp [earlier, wanted]) (by simpa using wanted) 1 0 second
        rfl rfl
      rw [snapshotAnswers_plain (LanguagesAgree.alone second) (by simp)] at same
      exact same
    refine ⟨?_, ?_, ?_⟩
    · intro name wanted
      exact (lowered_eq_iff name).mp (Answer.nodes.inj (single (.nodesByLowerName name) wanted))
    · intro path first second earlier wanted text content
      have same := after (.importMappings path first) (.importMappings path second) earlier wanted
      rw [storeAnswers_mappings] at same
      have kept := Answer.mappings.inj (Option.some.inj same)
      simpa [StoreResolutionContext.mappings, content] using kept
    · intro path first second earlier wanted text content
      have same := after (.reExports path first) (.reExports path second) earlier wanted
      rw [storeAnswers_reExports] at same
      have kept := Answer.reExports.inj (Option.some.inj same)
      simpa [reExported, content] using kept
  · intro ⟨lowers, languages⟩
    exact .of_conditions lowers languages

/-- Lower case of the letters of Latin-1 text. -/
def latinLowercase (name : String) : String :=
  String.ofList (name.toList.map fun letter =>
    if ('A' ≤ letter ∧ letter ≤ 'Z') ∨ ('À' ≤ letter ∧ letter ≤ 'Þ' ∧ letter ≠ '×') then Char.ofNat (letter.toNat + 32)
    else letter)

/-- A store of one node lists it wherever a query selects it. -/
def singleNodeStore (node : Node) : IndexStore where
  toGraphStore := GraphStore.inTableOrder [node] [] (by simp)
  files := [node.filePath]
  fileKey := by simp
  nodesListed query := [node].filter query.selects
  nodesListedAll _ := List.Perm.refl _
  nodesInOrder query := by
    by_cases selected : query.selects node = true <;> simp [selected]
  allNodeNames := [node.name]
  nodeNamesAll name := by simp [GraphStore.inTableOrder]
  nodeNamesOnce := by simp

/-- A pass over one class whose name starts with an accented capital, in a file that cannot be read. -/
def accentedPass : StoreResolutionContext where
  store := singleNodeStore
    { bareNode "class:etat" .class_ with name := "État", qualifiedName := "État", filePath := "etat.py" }
  tree := ⟨fun _ => false, fun _ => none⟩
  rules := ⟨latinLowercase, fun _ _ => [], fun _ _ => [], fun _ _ => false, fun _ _ => []⟩

/-- The store does not fold the accented capital that the snapshot does. -/
theorem accented_name_disagrees : ¬ ContextsAgree accentedPass fun _ => True := by
  intro agree
  have same := agree.answers [.nodesByLowerName "état"] [.nodesByLowerName "état"] (by simp) (by simp) 0 0 _ rfl rfl
  rw [storeAnswers_plain (LanguagesAgree.alone (.nodesByLowerName "état")) (by simp),
    snapshotAnswers_plain (LanguagesAgree.alone (.nodesByLowerName "état")) (by simp)] at same
  have lowers := (lowered_eq_iff "état").mp (Answer.nodes.inj (Option.some.inj same))
  have folded := lowers _ (mem_singleton.mpr rfl)
  revert folded
  decide

end Sequences

end Codegraph.Resolve
