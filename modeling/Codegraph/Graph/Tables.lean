import Codegraph.Core.Types
import Mathlib.Data.List.Perm.Basic
import Mathlib.Data.List.Nodup

/- This file holds the node and edge tables of a store and the queries that a traversal makes of them. -/

namespace Codegraph.Graph
open Codegraph.Core

/-- A query selects the edges of one endpoint, of one kind or of all. -/
inductive EdgeQuery where
  | bySource (id : String) (kind : Option EdgeKind)
  | byTarget (id : String) (kind : Option EdgeKind)
  deriving DecidableEq

def EdgeQuery.selects : EdgeQuery → Edge → Bool
  | .bySource id kind, edge => edge.source = id && kind.all fun wanted => edge.kind = wanted
  | .byTarget id kind, edge => edge.target = id && kind.all fun wanted => edge.kind = wanted

/-- Node ids are unique, an edge may name a missing node, and no query promises an order. -/
structure GraphStore where
  nodes : List Node
  edges : List Edge
  nodeKey : (nodes.map Node.id).Nodup
  listed : EdgeQuery → List Edge
  listedAll : ∀ query, (listed query).Perm (edges.filter query.selects)

/-- A store that lists every query in table order. -/
def GraphStore.inTableOrder (nodes : List Node) (edges : List Edge) (nodeKey : (nodes.map Node.id).Nodup) :
    GraphStore where
  nodes := nodes
  edges := edges
  nodeKey := nodeKey
  listed query := edges.filter query.selects
  listedAll _ := .refl _

variable (store : GraphStore)

def GraphStore.nodeById (id : String) : Option Node := store.nodes.find? fun node => node.id = id

/-- The looked up nodes are keyed by their id, and an id without a row has no entry. -/
def GraphStore.nodesByIds (ids : List String) (id : String) : Option Node :=
  if id ∈ ids then store.nodeById id else none

def GraphStore.edgesBySourceKind (id : String) (kind : Option EdgeKind) : List Edge :=
  store.listed (.bySource id kind)

def GraphStore.edgesByTargetKind (id : String) (kind : Option EdgeKind) : List Edge :=
  store.listed (.byTarget id kind)

def GraphStore.outgoingEdgesKinds (id : String) (kinds : List EdgeKind) : List Edge :=
  kinds.flatMap fun kind => store.edgesBySourceKind id (some kind)

def GraphStore.incomingEdgesKinds (id : String) (kinds : List EdgeKind) : List Edge :=
  kinds.flatMap fun kind => store.edgesByTargetKind id (some kind)

/-- No kinds means every kind. -/
def GraphStore.outgoingEdges (id : String) (kinds : List EdgeKind) : List Edge :=
  if kinds.isEmpty then store.edgesBySourceKind id none else store.outgoingEdgesKinds id kinds

def GraphStore.incomingEdges (id : String) (kinds : List EdgeKind) : List Edge :=
  if kinds.isEmpty then store.edgesByTargetKind id none else store.incomingEdgesKinds id kinds

/-- A node exists when some row has its id. -/
def GraphStore.Exists (id : String) : Prop := ∃ node, store.nodeById id = some node

variable {store} {id : String} {kinds : List EdgeKind} {edge : Edge}

theorem GraphStore.nodeById_id {node : Node} (found : store.nodeById id = some node) : node.id = id := by
  simpa using List.find?_some found

theorem GraphStore.nodeById_mem {node : Node} (found : store.nodeById id = some node) : node ∈ store.nodes :=
  List.mem_of_find?_eq_some found

theorem GraphStore.exists_iff : store.Exists id ↔ id ∈ store.nodes.map Node.id := by
  constructor
  · intro ⟨node, found⟩
    exact List.mem_map.mpr ⟨node, nodeById_mem found, nodeById_id found⟩
  · intro member
    obtain ⟨node, stored, same⟩ := List.mem_map.mp member
    rcases found : store.nodeById id with _ | row
    · exact absurd same (by simpa using List.find?_eq_none.mp found node stored)
    · exact ⟨row, found⟩

/-- A listed endpoint is looked up among the endpoints of the list. -/
theorem GraphStore.nodesByIds_map {edges : List Edge} {far : Edge → String} (listed : edge ∈ edges) :
    store.nodesByIds (edges.map far) (far edge) = store.nodeById (far edge) :=
  if_pos (List.mem_map_of_mem listed)

theorem GraphStore.mem_listed {query : EdgeQuery} :
    edge ∈ store.listed query ↔ edge ∈ store.edges ∧ query.selects edge = true := by
  rw [(store.listedAll query).mem_iff, List.mem_filter]

theorem GraphStore.mem_outgoingEdgesKinds :
    edge ∈ store.outgoingEdgesKinds id kinds ↔ edge ∈ store.edges ∧ edge.source = id ∧ edge.kind ∈ kinds := by
  simp only [outgoingEdgesKinds, edgesBySourceKind, List.mem_flatMap, mem_listed, EdgeQuery.selects]
  constructor
  · intro ⟨kind, member, stored, selected⟩
    simp only [Option.all_some, Bool.and_eq_true, decide_eq_true_eq] at selected
    exact ⟨stored, selected.1, selected.2 ▸ member⟩
  · intro ⟨stored, source, member⟩
    exact ⟨edge.kind, member, stored, by simp [source]⟩

theorem GraphStore.mem_incomingEdgesKinds :
    edge ∈ store.incomingEdgesKinds id kinds ↔ edge ∈ store.edges ∧ edge.target = id ∧ edge.kind ∈ kinds := by
  simp only [incomingEdgesKinds, edgesByTargetKind, List.mem_flatMap, mem_listed, EdgeQuery.selects]
  constructor
  · intro ⟨kind, member, stored, selected⟩
    simp only [Option.all_some, Bool.and_eq_true, decide_eq_true_eq] at selected
    exact ⟨stored, selected.1, selected.2 ▸ member⟩
  · intro ⟨stored, target, member⟩
    exact ⟨edge.kind, member, stored, by simp [target]⟩

/-- An empty list of kinds allows every kind. -/
def allowedKind (kinds : List EdgeKind) (kind : EdgeKind) : Prop := kinds = [] ∨ kind ∈ kinds

theorem GraphStore.mem_outgoingEdges :
    edge ∈ store.outgoingEdges id kinds ↔ edge ∈ store.edges ∧ edge.source = id ∧ allowedKind kinds edge.kind := by
  rcases kinds with _ | ⟨first, rest⟩
  · simp [outgoingEdges, edgesBySourceKind, mem_listed, EdgeQuery.selects, allowedKind]
  · simp [outgoingEdges, mem_outgoingEdgesKinds, allowedKind]

theorem GraphStore.mem_incomingEdges :
    edge ∈ store.incomingEdges id kinds ↔ edge ∈ store.edges ∧ edge.target = id ∧ allowedKind kinds edge.kind := by
  rcases kinds with _ | ⟨first, rest⟩
  · simp [incomingEdges, edgesByTargetKind, mem_listed, EdgeQuery.selects, allowedKind]
  · simp [incomingEdges, mem_incomingEdgesKinds, allowedKind]

/-- Two stores hold the same tables when they differ only in the order of their rows and lists. -/
structure GraphStore.SameTables (store other : GraphStore) : Prop where
  nodes : other.nodes.Perm store.nodes
  edges : other.edges.Perm store.edges

theorem GraphStore.SameTables.exists_iff {other : GraphStore} (same : store.SameTables other) :
    other.Exists id ↔ store.Exists id := by
  rw [GraphStore.exists_iff, GraphStore.exists_iff, (same.nodes.map Node.id).mem_iff]

theorem GraphStore.SameTables.mem_edges {other : GraphStore} (same : store.SameTables other) :
    edge ∈ other.edges ↔ edge ∈ store.edges := same.edges.mem_iff

/-- A node of which only the identity and the kind matter. -/
def bareNode (id : String) (kind : NodeKind) : Node where
  id := id
  kind := kind
  name := id
  qualifiedName := id
  filePath := ""
  language := .unknown
  startLine := 1
  endLine := 1
  startColumn := 0
  endColumn := 0
  docstring := none
  signature := none
  visibility := none
  isExported := false
  isAsync := false
  isStatic := false
  isAbstract := false
  decorators := []
  typeParameters := []
  returnType := none
  updatedAt := 0

def bareEdge (source target : String) (kind : EdgeKind) : Edge := ⟨none, source, target, kind, none, none, none, none⟩

end Codegraph.Graph
