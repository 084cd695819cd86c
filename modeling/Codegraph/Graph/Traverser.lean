import Codegraph.Graph.Tables

/- This file holds the walks over the edge table: callers and callees, the type hierarchy, the impact radius, and
the shortest path. -/

namespace Codegraph.Graph
open Codegraph.Core

def containerKinds : List NodeKind :=
  [.class_, .interface, .struct, .union, .trait, .protocol, .module, .enum]

/-- The edge kinds by which one symbol depends on another. -/
def callKinds : List EdgeKind := [.calls, .references, .imports, .instantiates]

def typeKinds : List EdgeKind := [.extends_, .implements]

/-- The shallowest depth at which each node was expanded. -/
abbrev Depths := String → Option Nat

def nearerThanBefore (visited : Depths) (nodeId : String) (depth : Nat) : Bool :=
  (visited nodeId).all fun seen => depth < seen

/-- Entering records the depth, and a node that was expanded at this depth or nearer is not entered. -/
def enterAtDepth (visited : Depths) (nodeId : String) (depth : Nat) : Option Depths :=
  if nearerThanBefore visited nodeId depth then some (Function.update visited nodeId (some depth)) else none

structure NodeEdge where
  node : Node
  edge : Edge
  deriving DecidableEq

/-- A walk over callers or callees collects its rows, its depths, and the reported pairs. -/
structure CallWalk where
  result : List NodeEdge
  visited : Depths
  reported : List (String × EdgeKind)

def CallWalk.empty : CallWalk := ⟨[], fun _ => none, []⟩

/-- A neighbour is reported once for each edge kind. -/
def CallWalk.report (walk : CallWalk) (neighbour : Node) (edge : Edge) : CallWalk :=
  if (neighbour.id, edge.kind) ∈ walk.reported then walk
  else { walk with
    reported := (neighbour.id, edge.kind) :: walk.reported
    result := walk.result ++ [⟨neighbour, edge⟩] }

/-- A neighbour that exists is reported, and it is walked when this path is nearer than before. -/
def visitNeighbour (neighbours : String → Option Node) (far : Edge → String) (nextDepth : Nat)
    (descend : String → CallWalk → CallWalk) (walk : CallWalk) (edge : Edge) : CallWalk :=
  match neighbours (far edge) with
  | none => walk
  | some neighbour =>
    let recurse := nearerThanBefore walk.visited neighbour.id nextDepth
    let walk := walk.report neighbour edge
    if recurse then descend neighbour.id walk else walk

/-- The walk lists the edges at a node and follows their far ends within the limit. -/
def neighboursRecursive (store : GraphStore) (list : String → List Edge) (far : Edge → String) (maxDepth : Nat)
    (nodeId : String) (currentDepth : Nat) (walk : CallWalk) : CallWalk :=
  if _deep : currentDepth ≥ maxDepth then walk
  else
    match enterAtDepth walk.visited nodeId currentDepth with
    | none => walk
    | some visited =>
      let edges := list nodeId
      let neighbours := store.nodesByIds (edges.map far)
      edges.foldl
        (visitNeighbour neighbours far (currentDepth + 1) fun neighbourId walk =>
          neighboursRecursive store list far maxDepth neighbourId (currentDepth + 1) walk)
        { walk with visited := visited }
termination_by maxDepth - currentDepth

def callersRecursive (store : GraphStore) : Nat → String → Nat → CallWalk → CallWalk :=
  neighboursRecursive store (fun nodeId => store.incomingEdgesKinds nodeId callKinds) Edge.source

def calleesRecursive (store : GraphStore) : Nat → String → Nat → CallWalk → CallWalk :=
  neighboursRecursive store (fun nodeId => store.outgoingEdgesKinds nodeId callKinds) Edge.target

def getCallers (store : GraphStore) (nodeId : String) (maxDepth : Nat) : List NodeEdge :=
  (callersRecursive store maxDepth nodeId 0 .empty).result

def getCallees (store : GraphStore) (nodeId : String) (maxDepth : Nat) : List NodeEdge :=
  (calleesRecursive store maxDepth nodeId 0 .empty).result

/-- A subgraph keys its nodes by id and remembers the order in which they came. -/
structure Subgraph where
  nodes : String → Option Node
  nodeOrder : List String
  edges : List Edge
  roots : List String

def Subgraph.empty : Subgraph := ⟨fun _ => none, [], [], []⟩

def Subgraph.setNode (graph : Subgraph) (node : Node) : Subgraph :=
  { graph with
    nodeOrder := if (graph.nodes node.id).isSome then graph.nodeOrder else graph.nodeOrder ++ [node.id]
    nodes := Function.update graph.nodes node.id (some node) }

def Subgraph.pushEdge (graph : Subgraph) (edge : Edge) : Subgraph := { graph with edges := graph.edges ++ [edge] }

/-- A subgraph holds the ids that it has a node for. -/
def Subgraph.Holds (graph : Subgraph) (id : String) : Prop := (graph.nodes id).isSome = true

theorem Subgraph.setNode_holds (graph : Subgraph) (node : Node) (id : String) :
    (graph.setNode node).Holds id ↔ graph.Holds id ∨ id = node.id := by
  by_cases same : id = node.id
  · simp [Subgraph.Holds, Subgraph.setNode, same]
  · simp [Subgraph.Holds, Subgraph.setNode, same]

@[simp] theorem Subgraph.pushEdge_holds (graph : Subgraph) (edge : Edge) (id : String) :
    (graph.pushEdge edge).Holds id ↔ graph.Holds id := .rfl

/-- The two hierarchy walks share one subgraph and one set of visited nodes. -/
structure TypeWalk where
  graph : Subgraph
  visited : List String

/-- A relative that the subgraph does not hold yet joins it and is walked. -/
def visitRelative (relatives : String → Option Node) (far : Edge → String)
    (descend : String → TypeWalk → Option TypeWalk) (walk : TypeWalk) (edge : Edge) : Option TypeWalk :=
  match relatives (far edge) with
  | none => some walk
  | some relative =>
    if (walk.graph.nodes relative.id).isSome then some walk
    else descend relative.id { walk with graph := (walk.graph.setNode relative).pushEdge edge }

/-- A hierarchy walk follows the far ends of the edges at each node that it has not visited. -/
def typesRecursive (store : GraphStore) (list : String → List Edge) (far : Edge → String) :
    Nat → String → TypeWalk → Option TypeWalk
  | 0, _, _ => none
  | fuel + 1, nodeId, walk =>
    if nodeId ∈ walk.visited then some walk
    else
      let edges := list nodeId
      let relatives := store.nodesByIds (edges.map far)
      edges.foldlM
        (visitRelative relatives far fun relativeId walk => typesRecursive store list far fuel relativeId walk)
        { walk with visited := nodeId :: walk.visited }

def typeAncestors (store : GraphStore) : Nat → String → TypeWalk → Option TypeWalk :=
  typesRecursive store (fun nodeId => store.outgoingEdgesKinds nodeId typeKinds) Edge.target

def typeDescendants (store : GraphStore) : Nat → String → TypeWalk → Option TypeWalk :=
  typesRecursive store (fun nodeId => store.incomingEdgesKinds nodeId typeKinds) Edge.source

def getTypeHierarchy (store : GraphStore) (fuel : Nat) (nodeId : String) : Option Subgraph :=
  match store.nodeById nodeId with
  | none => some .empty
  | some focal => do
      let walk ← typeAncestors store fuel nodeId ⟨Subgraph.empty.setNode focal, []⟩
      let walk ← typeDescendants store fuel nodeId walk
      return { walk.graph with roots := [nodeId] }

/-- The impact walk remembers which nodes were expanded before. -/
structure ImpactWalk where
  graph : Subgraph
  visited : Depths
  expanded : List String

/-- A child is part of the same symbol, so it joins the subgraph and is walked at the same depth. -/
def visitChild (children : String → Option Node) (currentDepth : Nat)
    (descend : String → ImpactWalk → Option ImpactWalk) (walk : ImpactWalk) (edge : Edge) : Option ImpactWalk :=
  match children edge.target with
  | none => some walk
  | some child =>
    if nearerThanBefore walk.visited child.id currentDepth then
      let graph := if (walk.graph.nodes child.id).isSome then walk.graph
        else (walk.graph.setNode child).pushEdge edge
      descend child.id { walk with graph := graph }
    else some walk

/-- A dependent joins the subgraph, and its edge is recorded on the first expansion only. -/
def visitDependent (sources : String → Option Node) (firstExpansion : Bool) (nextDepth : Nat)
    (descend : String → ImpactWalk → Option ImpactWalk) (walk : ImpactWalk) (edge : Edge) : Option ImpactWalk :=
  match sources edge.source with
  | none => some walk
  | some source =>
    let graph := if (walk.graph.nodes source.id).isSome then walk.graph else walk.graph.setNode source
    let graph := if firstExpansion then graph.pushEdge edge else graph
    let walk := { walk with graph := graph }
    if nearerThanBefore walk.visited source.id nextDepth then descend source.id walk else some walk

/-- Only a container has children to pull in. -/
def childEdges (store : GraphStore) (nodeId : String) : List Edge :=
  match store.nodeById nodeId with
  | some focal => if focal.kind ∈ containerKinds then store.outgoingEdgesKinds nodeId [.contains] else []
  | none => []

def dependentEdges (store : GraphStore) (nodeId : String) : List Edge :=
  (store.incomingEdges nodeId []).filter fun edge => edge.kind ≠ .contains

def impactRecursive (store : GraphStore) (maxDepth : Nat) : Nat → String → Nat → ImpactWalk → Option ImpactWalk
  | 0, _, _, _ => none
  | fuel + 1, nodeId, currentDepth, walk =>
    if currentDepth ≥ maxDepth then some walk
    else
      match enterAtDepth walk.visited nodeId currentDepth with
      | none => some walk
      | some visited => do
          let firstExpansion := decide (nodeId ∉ walk.expanded)
          let contains := childEdges store nodeId
          let walk ← contains.foldlM
            (visitChild (store.nodesByIds (contains.map Edge.target)) currentDepth fun childId walk =>
              impactRecursive store maxDepth fuel childId currentDepth walk)
            { walk with
              visited := visited
              expanded := if firstExpansion then nodeId :: walk.expanded else walk.expanded }
          let incoming := dependentEdges store nodeId
          incoming.foldlM
            (visitDependent (store.nodesByIds (incoming.map Edge.source)) firstExpansion (currentDepth + 1)
              fun sourceId walk => impactRecursive store maxDepth fuel sourceId (currentDepth + 1) walk)
            walk

def getImpactRadius (store : GraphStore) (fuel : Nat) (nodeId : String) (maxDepth : Nat) : Option Subgraph :=
  match store.nodeById nodeId with
  | none => some .empty
  | some focal => do
      let walk ← impactRecursive store maxDepth fuel nodeId 0 ⟨Subgraph.empty.setNode focal, fun _ => none, []⟩
      return { walk.graph with roots := [nodeId] }

structure PathStep where
  node : Node
  edge : Option Edge
  deriving DecidableEq

structure PathSearchStats where
  enqueued : Nat
  dequeued : Nat
  duplicateDequeues : Nat
  deriving DecidableEq

/-- The search queues each node with the path that first reached it. -/
structure PathSearch where
  visited : List String
  enqueued : List String
  queue : List (String × List PathStep)
  stats : PathSearchStats

/-- A neighbour that was neither visited nor enqueued joins the back of the queue. -/
def PathSearch.enqueue (search : PathSearch) (path : List PathStep) (next : Node) (edge : Edge) : PathSearch :=
  { search with
    enqueued := edge.target :: search.enqueued
    queue := search.queue ++ [(edge.target, path ++ [⟨next, some edge⟩])]
    stats := { search.stats with enqueued := search.stats.enqueued + 1 } }

def PathSearch.visit (nextNodes : String → Option Node) (path : List PathStep) (search : PathSearch) (edge : Edge) :
    PathSearch :=
  if edge.target ∉ search.visited ∧ edge.target ∉ search.enqueued then
    match nextNodes edge.target with
    | some next => search.enqueue path next edge
    | none => search
  else search

/-- Expanding a node enqueues its fresh neighbours in the listed order. -/
def PathSearch.expand (store : GraphStore) (edgeKinds : List EdgeKind) (nodeId : String) (path : List PathStep)
    (search : PathSearch) : PathSearch :=
  let outgoing := store.outgoingEdges nodeId edgeKinds
  let wantIds := (outgoing.map Edge.target).filter fun id => id ∉ search.visited ∧ id ∉ search.enqueued
  let nextNodes := store.nodesByIds wantIds
  outgoing.foldl (.visit nextNodes path) search

/-- One round pops the front of the queue, and it ends the search or goes on. -/
inductive PathRound where
  | done (path : Option (List PathStep)) (search : PathSearch)
  | next (search : PathSearch)

def PathSearch.round (store : GraphStore) (toId : String) (edgeKinds : List EdgeKind) (search : PathSearch) :
    PathRound :=
  match search.queue with
  | [] => .done none search
  | (nodeId, path) :: queue =>
    let search := { search with
      queue := queue
      stats := { search.stats with dequeued := search.stats.dequeued + 1 } }
    if nodeId = toId then .done (some path) search
    else if nodeId ∈ search.visited then
      .next { search with
        stats := { search.stats with duplicateDequeues := search.stats.duplicateDequeues + 1 } }
    else
      .next (.expand store edgeKinds nodeId path { search with visited := nodeId :: search.visited })

def PathSearch.run (store : GraphStore) (toId : String) (edgeKinds : List EdgeKind) :
    Nat → PathSearch → Option (Option (List PathStep) × PathSearch)
  | 0, _ => none
  | fuel + 1, search =>
    match search.round store toId edgeKinds with
    | .done path final => some (path, final)
    | .next search => PathSearch.run store toId edgeKinds fuel search

def PathSearch.start (fromId : String) (fromNode : Node) : PathSearch where
  visited := []
  enqueued := [fromId]
  queue := [(fromId, [⟨fromNode, none⟩])]
  stats := ⟨1, 0, 0⟩

def findPathInstrumented (store : GraphStore) (fuel : Nat) (fromId toId : String) (edgeKinds : List EdgeKind) :
    Option (Option (List PathStep) × PathSearchStats) :=
  match store.nodeById fromId with
  | none => some (none, ⟨0, 0, 0⟩)
  | some fromNode =>
    if (store.nodeById toId).isNone then some (none, ⟨0, 0, 0⟩)
    else (PathSearch.run store toId edgeKinds fuel (PathSearch.start fromId fromNode)).map
      fun (path, final) => (path, final.stats)

end Codegraph.Graph
