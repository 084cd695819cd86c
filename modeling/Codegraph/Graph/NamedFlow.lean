import Codegraph.Graph.Callers
import Codegraph.Library.InsertionMaps
import Codegraph.Library.ParentChains

/- This file holds the two walks that search for a call path among named symbols. -/

namespace Codegraph.Graph
open Codegraph.Core InsertionMaps ParentChains

def namedVisitCap : Nat := 1500

def directedVisitCap : Nat := 12000

/-- Edge kinds a flow may ride. -/
def isFlowEdge (kind : EdgeKind) : Bool := kind = .calls

def callees (store : GraphStore) (id : String) : List NodeEdge := getCallees store id 1

def callers (store : GraphStore) (id : String) : List NodeEdge := getCallers store id 1

/-- A hop tells where the walk came from and over which edge. -/
structure Hop where
  prev : Option String
  edge : Option Edge
  node : Node
  deriving DecidableEq

/-- The parent map tells how each reached node was reached. -/
abbrev Parent := InsertionMap String Hop

/-- The edge of a step leads into its node from the previous step. -/
structure FlowStep where
  node : Node
  edge : Option Edge
  deriving DecidableEq

def FlowStep.id (step : FlowStep) : String := step.node.id

/-- A route counts its hops from the seed, the unnamed hops that it ends on, and its named symbols. -/
structure Route where
  depth : Nat
  streak : Nat
  named : Nat
  deriving DecidableEq

/-- The chain is pushed from the target back to the seed and then reversed. -/
def followPrev (parent : Parent) : Nat → Option String → List FlowStep → Option (List FlowStep)
  | 0, _, _ => none
  | _ + 1, none, steps => some steps.reverse
  | fuel + 1, some id, steps =>
    match parent.get id with
    | none => some steps.reverse
    | some hop => followPrev parent fuel hop.prev (steps ++ [⟨hop.node, hop.edge⟩])

def chainTo (parent : Parent) (fuel : Nat) (target : String) : Option (List FlowStep) :=
  followPrev parent fuel (some target) []

/-- The named walk keeps its parent map, the route to each node, its queue with the next place to read, and the named
nodes that it read. -/
structure NamedWalk where
  parent : Parent
  routes : String → Option Route
  queue : List String
  reached : List String
  head : Nat

/-- A callee extends the route to its caller, and a route node costs no bridge. -/
def Route.extend (route : Route) (named : List String) (node : Node) : Route where
  depth := route.depth + 1
  streak := if node.id ∈ named then 0 else if node.kind = .route then route.streak else route.streak + 1
  named := route.named + if node.id ∈ named then 1 else 0

/-- A rival of another length, or one that is no better, leaves the prior route. -/
def Route.keeps (prior rival : Route) : Bool :=
  prior.depth ≠ rival.depth || rival.streak > prior.streak || (rival.streak = prior.streak && rival.named ≤ prior.named)

def NamedWalk.take (walk : NamedWalk) (id : String) (callee : NodeEdge) (route : Route) : NamedWalk :=
  { walk with
    routes := Function.update walk.routes callee.node.id (some route)
    parent := walk.parent.insert callee.node.id ⟨some id, some callee.edge, callee.node⟩ }

def NamedWalk.meet (named : List String) (maxBridge : Nat) (id : String) (at_ : Route) (walk : NamedWalk)
    (callee : NodeEdge) : NamedWalk :=
  if !isFlowEdge callee.edge.kind then walk
  else
    let route := at_.extend named callee.node
    if route.streak > maxBridge then walk
    else
      match walk.routes callee.node.id with
      | some prior => if prior.keeps route then walk else walk.take id callee route
      | none => { walk with queue := walk.queue ++ [callee.node.id] }.take id callee route

def NamedWalk.expand (store : GraphStore) (named : List String) (maxHops maxBridge : Nat) (id : String) (at_ : Route)
    (walk : NamedWalk) : NamedWalk :=
  if at_.depth + 1 ≥ maxHops then walk
  else (callees store id).foldl (NamedWalk.meet named maxBridge id at_) walk

/-- The walk goes on until its queue is read through or the visit cap is met. -/
def NamedWalk.going (walk : NamedWalk) : Bool := walk.head < walk.queue.length && walk.parent.len < namedVisitCap

/-- One turn reads the next queued node and expands it. Reading a node without a route would fail. -/
def NamedWalk.turn (store : GraphStore) (seed : Node) (named : List String) (maxHops maxBridge : Nat)
    (walk : NamedWalk) :
    Option NamedWalk := do
  let id ← walk.queue[walk.head]?
  let at_ ← walk.routes id
  let reached := if id ≠ seed.id ∧ id ∈ named then walk.reached ++ [id] else walk.reached
  return NamedWalk.expand store named maxHops maxBridge id at_ { walk with head := walk.head + 1, reached := reached }

def NamedWalk.run (store : GraphStore) (seed : Node) (named : List String) (maxHops maxBridge : Nat) :
    Nat → NamedWalk → Option NamedWalk
  | 0, _ => none
  | fuel + 1, walk =>
    if walk.going then
      (walk.turn store seed named maxHops maxBridge).bind (run store seed named maxHops maxBridge fuel)
    else some walk

def Route.start (seed : Node) (named : List String) : Route := ⟨0, 0, if seed.id ∈ named then 1 else 0⟩

def NamedWalk.start (seed : Node) (named : List String) : NamedWalk where
  parent := InsertionMap.empty.insert seed.id ⟨none, none, seed⟩
  routes := Function.update (fun _ => none) seed.id (some (Route.start seed named))
  queue := [seed.id]
  reached := []
  head := 0

def walkCalls (store : GraphStore) (fuel : Nat) (seed : Node) (named : List String) (maxHops maxBridge : Nat) :
    Option NamedWalk :=
  NamedWalk.run store seed named maxHops maxBridge fuel (NamedWalk.start seed named)

/-- The forward side keeps its ids in the order in which they were inserted. -/
structure ForwardSide where
  order : List String
  hops : Parent

/-- The backward side keeps the edge out of each node, and a sink has none. -/
structure BackwardSide where
  links : InsertionMap String (Option (String × Edge))
  nodes : String → Option Node

def ForwardSide.insert (side : ForwardSide) (node : Node) (callee : NodeEdge) : ForwardSide where
  order := side.order ++ [callee.node.id]
  hops := side.hops.insert callee.node.id ⟨some node.id, some callee.edge, callee.node⟩

def BackwardSide.insert (side : BackwardSide) (node : Node) (caller : NodeEdge) : BackwardSide where
  links := side.links.insert caller.node.id (some (node.id, caller.edge))
  nodes := Function.update side.nodes caller.node.id (some caller.node)

def ForwardSide.contains (side : ForwardSide) (id : String) : Bool := side.hops.containsKey id

def BackwardSide.contains (side : BackwardSide) (id : String) : Bool := side.links.containsKey id

section Levels

variable {σ : Type} (contains : σ → String → Bool) (insert : σ → Node → NodeEdge → σ)

/-- A neighbour over a flow edge that the side lacks joins it and the next front. -/
def reachNeighbour (node : Node) (reached : σ × List Node) (neighbour : NodeEdge) : σ × List Node :=
  if !isFlowEdge neighbour.edge.kind || contains reached.1 neighbour.node.id then reached
  else (insert reached.1 node neighbour, reached.2 ++ [neighbour.node])

/-- One level expands every node of the front. -/
def expandLevel (list : String → List NodeEdge) (front : List Node) (side : σ) : σ × List Node :=
  front.foldl (fun reached node => (list node.id).foldl (reachNeighbour contains insert node) reached) (side, [])

end Levels

structure TwoEnds where
  forward : ForwardSide
  backward : BackwardSide
  frontF : List Node
  frontB : List Node

/-- A round expands the smaller front, and it stops the search at the visit cap or when nothing new is reached. -/
def TwoEnds.round (store : GraphStore) (ends : TwoEnds) : Option TwoEnds :=
  if ends.frontF.length ≤ ends.frontB.length then
    if ends.forward.hops.len > directedVisitCap then none
    else
      let (forward, next) :=
        expandLevel ForwardSide.contains ForwardSide.insert (callees store) ends.frontF ends.forward
      if next.isEmpty then none else some { ends with forward := forward, frontF := next }
  else if ends.backward.links.len > directedVisitCap then none
  else
    let (backward, next) :=
      expandLevel BackwardSide.contains BackwardSide.insert (callers store) ends.frontB ends.backward
    if next.isEmpty then none else some { ends with backward := backward, frontB := next }

/-- An entry holds the edge out of its node, which is the edge into the step after it. -/
def BackwardSide.follow (side : BackwardSide) : Nat → Option (String × Edge) → List FlowStep → Option (List FlowStep)
  | 0, _, _ => none
  | _ + 1, none, steps => some steps
  | fuel + 1, some (nextId, edge), steps =>
    match side.nodes nextId with
    | none => some steps
    | some node => BackwardSide.follow side fuel (side.links.get nextId).join (steps ++ [⟨node, some edge⟩])

/-- The chain from the seed to the meeting node goes on to a sink. -/
def TwoEnds.stitch (ends : TwoEnds) (fuel : Nat) (sinks : List String) (maxHops : Nat) (meet : String) :
    Option (Option (List FlowStep)) := do
  let steps ← chainTo ends.forward.hops fuel meet
  let steps ← ends.backward.follow fuel (ends.backward.links.get meet).join steps
  let reachesSink := steps.getLast?.any fun last => last.node.id ∈ sinks
  if steps.length < 2 || !reachesSink then return none
  return if steps.length ≤ maxHops then some steps else none

def TwoEnds.run (store : GraphStore) (fuel : Nat) (sinks : List String) (maxHops : Nat) :
    Nat → TwoEnds → Option (Option (List FlowStep))
  | 0, _ => some none
  | rounds + 1, ends =>
    match ends.round store with
    | none => some none
    | some ends =>
      match ends.forward.order.find? fun id => ends.backward.contains id with
      | none => TwoEnds.run store fuel sinks maxHops rounds ends
      | some meet => ends.stitch fuel sinks maxHops meet

/-- A sink without a node and a sink that was listed before are passed over. -/
def BackwardSide.addSink (store : GraphStore) (reached : BackwardSide × List Node) (id : String) :
    BackwardSide × List Node :=
  match store.nodeById id with
  | none => reached
  | some node =>
    if reached.1.contains id then reached
    else (⟨reached.1.links.insert id none, Function.update reached.1.nodes id (some node)⟩, reached.2 ++ [node])

def walkBidirectional (store : GraphStore) (fuel : Nat) (seed : Node) (sinks : List String) (maxHops : Nat) :
    Option (Option (List FlowStep)) :=
  if seed.id ∈ sinks then some none
  else
    let forward : ForwardSide := ⟨[seed.id], InsertionMap.empty.insert seed.id ⟨none, none, seed⟩⟩
    let (backward, frontB) := sinks.foldl (BackwardSide.addSink store) (⟨InsertionMap.empty, fun _ => none⟩, [])
    if frontB.isEmpty then some none
    else TwoEnds.run store fuel sinks maxHops (max (maxHops - 1) 1) ⟨forward, backward, [seed], frontB⟩

/-- A flow edge is a call whose both ends exist. -/
def RidesFlow (store : GraphStore) (edge : Edge) (place next : String) : Prop :=
  edge ∈ store.edges ∧ edge.kind = .calls ∧ edge.source = place ∧ edge.target = next ∧ store.Exists place ∧
    store.Exists next

def flowStep (store : GraphStore) (place next : String) : Prop := ∃ edge, RidesFlow store edge place next

section Neighbours

variable {store : GraphStore} {id : String} {row : NodeEdge}

/-- A walk of depth one reports listed edges with the nodes at their far ends. -/
theorem neighbours_row {list : String → List Edge} {far : Edge → String}
    (member : row ∈ (neighboursRecursive store list far 1 id 0 CallWalk.empty).result) :
    row.edge ∈ list id ∧ store.nodeById (far row.edge) = some row.node := by
  have deep (place : String) (walk : CallWalk) : neighboursRecursive store list far 1 place 1 walk = walk := by
    rw [neighboursRecursive]
    simp
  rw [neighboursRecursive] at member
  split at member
  · cases member
  split at member
  · cases member
  rename_i visited _
  dsimp only at member
  revert member
  refine List.foldlRecOn (motive := fun walk : CallWalk => row ∈ walk.result →
    row.edge ∈ list id ∧ store.nodeById (far row.edge) = some row.node) (list id) _ ?_ ?_
  · intro member
    cases member
  · intro walk held edge listed member
    simp only [visitNeighbour, GraphStore.nodesByIds_map listed, Nat.zero_add, deep, ite_self] at member
    rcases found : store.nodeById (far edge) with _ | neighbour
    · rw [found] at member
      exact held member
    · rw [found] at member
      simp only [CallWalk.report] at member
      split at member
      · exact held member
      · rcases List.mem_append.mp member with old | new
        · exact held old
        · rw [List.mem_singleton.mp new]
          exact ⟨listed, found⟩

theorem callees_row (member : row ∈ callees store id) :
    row.edge ∈ store.edges ∧ row.edge.source = id ∧ store.nodeById row.edge.target = some row.node := by
  obtain ⟨listed, found⟩ := neighbours_row member
  obtain ⟨stored, source, -⟩ := GraphStore.mem_outgoingEdgesKinds.mp listed
  exact ⟨stored, source, found⟩

theorem callers_row (member : row ∈ callers store id) :
    row.edge ∈ store.edges ∧ row.edge.target = id ∧ store.nodeById row.edge.source = some row.node := by
  obtain ⟨listed, found⟩ := neighbours_row member
  obtain ⟨stored, target, -⟩ := GraphStore.mem_incomingEdgesKinds.mp listed
  exact ⟨stored, target, found⟩

/-- A callee over a flow edge is one flow step away, and a row tells the edge and the stored node. -/
theorem callees_rides (member : row ∈ callees store id) (flows : isFlowEdge row.edge.kind = true)
    (present : store.Exists id) :
    RidesFlow store row.edge id row.node.id ∧ store.nodeById row.node.id = some row.node := by
  obtain ⟨stored, source, found⟩ := callees_row member
  have same : row.node.id = row.edge.target := GraphStore.nodeById_id found
  rw [same]
  exact ⟨⟨stored, of_decide_eq_true flows, source, rfl, present, row.node, found⟩, found⟩

theorem callers_rides (member : row ∈ callers store id) (flows : isFlowEdge row.edge.kind = true)
    (present : store.Exists id) :
    RidesFlow store row.edge row.node.id id ∧ store.nodeById row.node.id = some row.node := by
  obtain ⟨stored, target, found⟩ := callers_row member
  have same : row.node.id = row.edge.source := GraphStore.nodeById_id found
  rw [same]
  exact ⟨⟨stored, of_decide_eq_true flows, rfl, target, ⟨row.node, found⟩, present⟩, found⟩

/-- Every step of the flow is listed as a callee. -/
theorem callees_complete {next : String} (taken : flowStep store id next) :
    ∃ row ∈ callees store id, isFlowEdge row.edge.kind = true ∧ row.node.id = next := by
  obtain ⟨edge, stored, kind, source, target, -, present⟩ := taken
  have near : DepthWalk.distance (calleeStep store) id edge.source < 1 := by
    rw [source]
    exact DepthWalk.distance_lt_iff.mpr ⟨0, Nat.one_pos, DepthWalk.Route.here⟩
  have reported := ((getCallees_exact store id 1).2 (edge.target, edge.kind)).mpr
    ⟨edge, stored, by rw [kind]; decide, by rw [target]; exact present, near, rfl⟩
  obtain ⟨row, member, same⟩ := List.mem_map.mp reported
  obtain ⟨sameId, sameKind⟩ := Prod.mk.inj same
  exact ⟨row, member, by rw [sameKind, kind]; rfl, by rw [sameId, target]⟩

/-- Every step of the flow is listed as a caller. -/
theorem callers_complete {before : String} (taken : flowStep store before id) :
    ∃ row ∈ callers store id, isFlowEdge row.edge.kind = true ∧ row.node.id = before := by
  obtain ⟨edge, stored, kind, source, target, present, -⟩ := taken
  have near : DepthWalk.distance (callerStep store) id edge.target < 1 := by
    rw [target]
    exact DepthWalk.distance_lt_iff.mpr ⟨0, Nat.one_pos, DepthWalk.Route.here⟩
  have reported := ((getCallers_exact store id 1).2 (edge.source, edge.kind)).mpr
    ⟨edge, stored, by rw [kind]; decide, by rw [source]; exact present, near, rfl⟩
  obtain ⟨row, member, same⟩ := List.mem_map.mp reported
  obtain ⟨sameId, sameKind⟩ := Prod.mk.inj same
  exact ⟨row, member, by rw [sameKind, kind]; rfl, by rw [sameId, source]⟩

end Neighbours

section Chains

variable {parent : Parent} {places : List String} {target : String}

/-- The table of parents forgets the edges and nodes of the hops. -/
def Parent.parents (parent : Parent) : Parents String := fun id => (parent.get id).map Hop.prev

/-- The step of a reached id has the node and the edge of its hop. -/
def Parent.step (parent : Parent) (id : String) : Option FlowStep :=
  (parent.get id).map fun hop => ⟨hop.node, hop.edge⟩

/-- The way back along the parents is the chain that they make. -/
theorem followPrev_chain (chain : Chain (Parent.parents parent) target places) (fuel : Nat)
    (enough : places.length < fuel) (steps : List FlowStep) :
    followPrev parent fuel (some target) steps = some (steps ++ places.filterMap (Parent.step parent)).reverse := by
  induction chain generalizing fuel steps with
  | @root place found =>
    obtain ⟨fuel, rfl⟩ : ∃ less, fuel = less + 2 := ⟨fuel - 2, by simp only [List.length_singleton] at enough; omega⟩
    obtain ⟨hop, stored, none_⟩ := Option.map_eq_some_iff.mp found
    simp [followPrev, stored, none_, Parent.step]
  | @link place before places found _ ih =>
    obtain ⟨fuel, rfl⟩ : ∃ less, fuel = less + 1 := ⟨fuel - 1, by omega⟩
    obtain ⟨hop, stored, prev⟩ := Option.map_eq_some_iff.mp found
    simp only [followPrev, stored, prev]
    rw [ih fuel (by simp only [List.length_cons] at enough; omega)]
    simp [Parent.step, stored]

/-- With enough fuel, the steps to a target are those of its chain from the seed on. -/
theorem chainTo_chain (chain : Chain (Parent.parents parent) target places) {fuel : Nat}
    (enough : places.length < fuel) :
    chainTo parent fuel target = some (places.reverse.filterMap (Parent.step parent)) := by
  rw [chainTo, followPrev_chain chain fuel enough, List.nil_append, List.filterMap_reverse]

end Chains

/-- Four functions and four calls, with two ways from the first to the last. -/
def forkedCalls : GraphStore :=
  .inTableOrder [bareNode "a" .function, bareNode "b" .function, bareNode "c" .function, bareNode "d" .function]
    [bareEdge "a" "b" .calls, bareEdge "b" "c" .calls, bareEdge "c" "d" .calls, bareEdge "b" "d" .calls] (by decide)

end Codegraph.Graph
