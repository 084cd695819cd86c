import Codegraph.Graph.Traverser
import Codegraph.Library.Breadth
import Mathlib.Data.List.Sort

/- This file holds the breadth-first and the depth-first traversal with their options. -/

namespace Codegraph.Graph
open Codegraph.Core

inductive Direction where
  | outgoing
  | incoming
  | both
  deriving DecidableEq

structure TraversalOptions where
  maxDepth : Option Nat
  edgeKinds : List EdgeKind
  nodeKinds : List NodeKind
  direction : Direction
  limit : Nat
  includeStart : Bool

def TraversalOptions.default : TraversalOptions := ⟨none, [], [], .outgoing, 1000, true⟩

def GraphStore.adjacentEdges (store : GraphStore) (nodeId : String) (direction : Direction)
    (edgeKinds : List EdgeKind) : List Edge :=
  match direction with
  | .outgoing => store.outgoingEdges nodeId edgeKinds
  | .incoming => store.incomingEdges nodeId edgeKinds
  | .both => store.outgoingEdges nodeId edgeKinds ++ store.incomingEdges nodeId edgeKinds

/-- Containment comes before calls, and calls come before everything else. -/
def structuralPriority (edge : Edge) : Nat :=
  match edge.kind with
  | .contains => 0
  | .calls => 1
  | _ => 2

def depthReached (depth : Nat) (maxDepth : Option Nat) : Bool := maxDepth.any fun max => depth ≥ max

def neighborId (edge : Edge) (nodeId : String) : String := if edge.source = nodeId then edge.target else edge.source

def unvisitedNeighborIds (edges : List Edge) (nodeId : String) (visited : List String) : List String :=
  (edges.map fun edge => neighborId edge nodeId).filter fun id => id ∉ visited

/-- The number of keys of the node table. -/
def Subgraph.len (graph : Subgraph) : Nat := graph.nodeOrder.length

/-- No kinds means that every kind may be entered. -/
def TraversalOptions.skipsKind (options : TraversalOptions) (kind : NodeKind) : Bool :=
  !options.nodeKinds.isEmpty && !options.nodeKinds.contains kind

/-- A queued node remembers the edge that found it and its depth. -/
structure BfsEntry where
  node : Node
  edge : Option Edge
  depth : Nat

structure BfsWalk where
  graph : Subgraph
  visited : List String
  queue : List BfsEntry

/-- A fresh neighbour joins the graph and the queue, unless the graph is full. -/
def BfsWalk.meet (options : TraversalOptions) (neighborNodes : String → Option Node) (entry : BfsEntry) (walk : BfsWalk)
    (edge : Edge) : BfsWalk :=
  -- A full graph stays full, so leaving the loop is the same as passing over the remaining edges.
  if walk.graph.len ≥ options.limit then walk
  else
    let nextId := neighborId edge entry.node.id
    if nextId ∈ walk.visited then walk
    else
      match neighborNodes nextId with
      | none => walk
      | some nextNode =>
        if options.skipsKind nextNode.kind then walk
        else { walk with
          graph := walk.graph.setNode nextNode
          queue := walk.queue ++ [⟨nextNode, some edge, entry.depth + 1⟩] }

def BfsWalk.expand (store : GraphStore) (options : TraversalOptions) (entry : BfsEntry) (walk : BfsWalk) : BfsWalk :=
  let adjacent := (store.adjacentEdges entry.node.id options.direction options.edgeKinds).insertionSort
    fun first second => structuralPriority first ≤ structuralPriority second
  let neighborNodes := store.nodesByIds (unvisitedNeighborIds adjacent entry.node.id walk.visited)
  adjacent.foldl (BfsWalk.meet options neighborNodes entry) walk

/-- A node that was not visited before contributes its edge, and it is expanded above the depth limit. -/
def BfsWalk.visit (store : GraphStore) (options : TraversalOptions) (entry : BfsEntry) (queue : List BfsEntry)
    (walk : BfsWalk) : BfsWalk :=
  let graph := match entry.edge with
    | some edge => walk.graph.pushEdge edge
    | none => walk.graph
  let walk := ⟨graph, entry.node.id :: walk.visited, queue⟩
  if depthReached entry.depth options.maxDepth then walk else walk.expand store options entry

def BfsWalk.run (store : GraphStore) (options : TraversalOptions) : Nat → BfsWalk → Option BfsWalk
  | 0, _ => none
  | fuel + 1, walk =>
    match walk.queue with
    | [] => some walk
    | entry :: queue =>
      if walk.graph.len ≥ options.limit then some walk
      else if entry.node.id ∈ walk.visited then BfsWalk.run store options fuel { walk with queue := queue }
      else BfsWalk.run store options fuel (walk.visit store options entry queue)

def TraversalOptions.startGraph (options : TraversalOptions) (startNode : Node) : Subgraph :=
  if options.includeStart then Subgraph.empty.setNode startNode else Subgraph.empty

def traverseBfs (store : GraphStore) (fuel : Nat) (startId : String) (options : TraversalOptions) : Option Subgraph :=
  match store.nodeById startId with
  | none => some Subgraph.empty
  | some startNode => do
      let walk ← BfsWalk.run store options fuel ⟨options.startGraph startNode, [], [⟨startNode, none, 0⟩]⟩
      return { walk.graph with roots := [startId] }

structure DfsWalk where
  graph : Subgraph
  visited : List String

/-- A fresh neighbour joins the graph with its edge and is descended into, unless the graph is full. -/
def DfsWalk.meet (options : TraversalOptions) (neighborNodes : String → Option Node) (nodeId : String)
    (descend : Node → DfsWalk → Option DfsWalk) (walk : DfsWalk) (edge : Edge) : Option DfsWalk :=
  if walk.graph.len ≥ options.limit then some walk
  else
    let nextId := neighborId edge nodeId
    if nextId ∈ walk.visited then some walk
    else
      match neighborNodes nextId with
      | none => some walk
      | some nextNode =>
        if options.skipsKind nextNode.kind then some walk
        else descend nextNode { walk with graph := (walk.graph.setNode nextNode).pushEdge edge }

def dfsRecursive (store : GraphStore) (options : TraversalOptions) : Nat → Node → Nat → DfsWalk → Option DfsWalk
  | 0, _, _, _ => none
  | fuel + 1, node, depth, walk =>
    if node.id ∈ walk.visited ∨ walk.graph.len ≥ options.limit ∨ depthReached depth options.maxDepth then some walk
    else
      let walk := { walk with visited := node.id :: walk.visited }
      let adjacent := store.adjacentEdges node.id options.direction options.edgeKinds
      let neighborNodes := store.nodesByIds (unvisitedNeighborIds adjacent node.id walk.visited)
      adjacent.foldlM
        (DfsWalk.meet options neighborNodes node.id fun nextNode walk =>
          dfsRecursive store options fuel nextNode (depth + 1) walk)
        walk

def traverseDfs (store : GraphStore) (fuel : Nat) (startId : String) (options : TraversalOptions) : Option Subgraph :=
  match store.nodeById startId with
  | none => some Subgraph.empty
  | some startNode => do
      let walk ← dfsRecursive store options fuel startNode 0 ⟨options.startGraph startNode, []⟩
      return { walk.graph with roots := [startId] }

section Steps

variable (store : GraphStore) (options : TraversalOptions)

/-- An allowed edge leads from one node to another in the direction of the traversal. -/
def TraversalOptions.Crosses (near : String) (edge : Edge) (far : String) : Prop :=
  edge ∈ store.edges ∧ allowedKind options.edgeKinds edge.kind ∧
    match options.direction with
    | .outgoing => edge.source = near ∧ edge.target = far
    | .incoming => edge.target = near ∧ edge.source = far
    | .both => edge.source = near ∧ edge.target = far ∨ edge.target = near ∧ edge.source = far

/-- A step crosses an allowed edge to a stored node of an allowed kind. -/
def TraversalOptions.Step (near far : String) : Prop :=
  ∃ edge node, options.Crosses store near edge far ∧ store.nodeById far = some node ∧
    options.skipsKind node.kind = false

variable {store options} {near far id : String} {edge : Edge} {node : Node}

/-- From either end an edge leads to the other end. -/
theorem TraversalOptions.Crosses.neighbors (crosses : options.Crosses store near edge far) :
    neighborId edge near = far ∧ neighborId edge far = near := by
  obtain ⟨-, -, joins⟩ := crosses
  have ends : edge.source = near ∧ edge.target = far ∨ edge.target = near ∧ edge.source = far := by
    cases way : options.direction <;> rw [way] at joins
    · exact .inl joins
    · exact .inr joins
    · exact joins
  unfold neighborId
  rcases ends with ⟨rfl, rfl⟩ | ⟨rfl, rfl⟩
  · exact ⟨if_pos rfl, by split <;> simp_all⟩
  · exact ⟨by split <;> simp_all, if_pos rfl⟩

/-- The edges that are crossed are those that are listed for the direction and the kinds. -/
theorem TraversalOptions.crosses_iff : options.Crosses store near edge far ↔
    edge ∈ store.adjacentEdges near options.direction options.edgeKinds ∧ neighborId edge near = far := by
  constructor
  · intro crosses
    refine ⟨?_, crosses.neighbors.1⟩
    obtain ⟨stored, allowed, joins⟩ := crosses
    unfold GraphStore.adjacentEdges
    cases way : options.direction <;> rw [way] at joins <;> dsimp only at joins ⊢
    · exact GraphStore.mem_outgoingEdges.mpr ⟨stored, joins.1, allowed⟩
    · exact GraphStore.mem_incomingEdges.mpr ⟨stored, joins.1, allowed⟩
    · rcases joins with ⟨source, -⟩ | ⟨target, -⟩
      · exact List.mem_append_left _ (GraphStore.mem_outgoingEdges.mpr ⟨stored, source, allowed⟩)
      · exact List.mem_append_right _ (GraphStore.mem_incomingEdges.mpr ⟨stored, target, allowed⟩)
  · rintro ⟨adjacent, rfl⟩
    unfold GraphStore.adjacentEdges at adjacent
    have leaves (source : edge.source = near) : edge.source = near ∧ edge.target = neighborId edge near :=
      ⟨source, by rw [neighborId, if_pos source]⟩
    have arrives (target : edge.target = near) : edge.target = near ∧ edge.source = neighborId edge near := by
      refine ⟨target, ?_⟩
      unfold neighborId
      split
      · rename_i loop
        rw [loop, target]
      · rfl
    unfold TraversalOptions.Crosses
    cases way : options.direction <;> rw [way] at adjacent <;> dsimp only at adjacent ⊢
    · obtain ⟨stored, source, allowed⟩ := GraphStore.mem_outgoingEdges.mp adjacent
      exact ⟨stored, allowed, leaves source⟩
    · obtain ⟨stored, target, allowed⟩ := GraphStore.mem_incomingEdges.mp adjacent
      exact ⟨stored, allowed, arrives target⟩
    · rcases List.mem_append.mp adjacent with out | into
      · obtain ⟨stored, source, allowed⟩ := GraphStore.mem_outgoingEdges.mp out
        exact ⟨stored, allowed, .inl (leaves source)⟩
      · obtain ⟨stored, target, allowed⟩ := GraphStore.mem_incomingEdges.mp into
        exact ⟨stored, allowed, .inr (arrives target)⟩

/-- The looked up neighbours are the stored ones. -/
theorem nodesByIds_unvisited {edges : List Edge} {visited : List String} (listed : edge ∈ edges)
    (fresh : neighborId edge near ∉ visited) :
    store.nodesByIds (unvisitedNeighborIds edges near visited) (neighborId edge near) =
      store.nodeById (neighborId edge near) := by
  rw [GraphStore.nodesByIds, if_pos]
  exact List.mem_filter.mpr ⟨List.mem_map.mpr ⟨edge, listed, rfl⟩, by simpa using fresh⟩

/-- The order of a keyed subgraph lists each of its nodes once. -/
structure Subgraph.Keyed (graph : Subgraph) : Prop where
  distinct : graph.nodeOrder.Nodup
  listed : ∀ id, id ∈ graph.nodeOrder ↔ graph.Holds id

@[simp] theorem Subgraph.empty_holds (id : String) : ¬ Subgraph.empty.Holds id := nofun

theorem Subgraph.Keyed.empty : Subgraph.empty.Keyed :=
  ⟨List.nodup_nil, fun id => ⟨nofun, fun held => absurd held (Subgraph.empty_holds id)⟩⟩

theorem Subgraph.Keyed.setNode {graph : Subgraph} (keyed : graph.Keyed) (node : Node) : (graph.setNode node).Keyed := by
  by_cases held : graph.Holds node.id
  · have order : (graph.setNode node).nodeOrder = graph.nodeOrder := if_pos held
    refine ⟨order ▸ keyed.distinct, fun id => ?_⟩
    rw [order, keyed.listed, Subgraph.setNode_holds]
    constructor
    · exact .inl
    · rintro (old | rfl)
      · exact old
      · exact held
  · have order : (graph.setNode node).nodeOrder = graph.nodeOrder ++ [node.id] := if_neg held
    refine ⟨?_, fun id => ?_⟩
    · rw [order]
      refine List.nodup_append.mpr ⟨keyed.distinct, List.nodup_singleton _, ?_⟩
      intro id old other new same
      exact held ((keyed.listed _).mp (List.mem_singleton.mp new ▸ same ▸ old))
    · rw [order, List.mem_append, List.mem_singleton, keyed.listed, Subgraph.setNode_holds]

theorem Subgraph.setNode_len (graph : Subgraph) (node : Node) : (graph.setNode node).len ≤ graph.len + 1 := by
  unfold Subgraph.len Subgraph.setNode
  split <;> simp

@[simp] theorem Subgraph.pushEdge_edges (graph : Subgraph) (edge : Edge) :
    (graph.pushEdge edge).edges = graph.edges ++ [edge] := rfl

theorem Subgraph.Keyed.pushEdge {graph : Subgraph} (keyed : graph.Keyed) (edge : Edge) : (graph.pushEdge edge).Keyed :=
  ⟨keyed.distinct, keyed.listed⟩

/-- A keyed subgraph of stored nodes has at most as many nodes as the store. -/
theorem Subgraph.Keyed.len_le {graph : Subgraph} (keyed : graph.Keyed)
    (stored : ∀ id, graph.Holds id → store.Exists id) : graph.len ≤ store.nodes.length := by
  have known : graph.nodeOrder ⊆ store.nodes.map Node.id :=
    fun id member => GraphStore.exists_iff.mp (stored id ((keyed.listed id).mp member))
  have bound := (List.subperm_of_subset keyed.distinct known).length_le
  rwa [List.length_map] at bound

theorem TraversalOptions.startGraph_holds (options : TraversalOptions) (startNode : Node) (id : String) :
    (options.startGraph startNode).Holds id ↔ options.includeStart = true ∧ id = startNode.id := by
  unfold TraversalOptions.startGraph
  cases options.includeStart
  · simp
  · simp [Subgraph.setNode_holds]

theorem TraversalOptions.startGraph_keyed (options : TraversalOptions) (startNode : Node) :
    (options.startGraph startNode).Keyed := by
  unfold TraversalOptions.startGraph
  split
  · exact Subgraph.Keyed.empty.setNode startNode
  · exact .empty

theorem TraversalOptions.startGraph_len (options : TraversalOptions) (startNode : Node) :
    (options.startGraph startNode).len ≤ 1 := by
  unfold TraversalOptions.startGraph
  split
  · exact Subgraph.setNode_len _ _
  · exact Nat.zero_le _

@[simp] theorem TraversalOptions.startGraph_edges (options : TraversalOptions) (startNode : Node) :
    (options.startGraph startNode).edges = [] := by
  unfold TraversalOptions.startGraph
  split <;> rfl

end Steps

end Codegraph.Graph
