import Codegraph.Graph.BreadthFirst
import Codegraph.Library.Routes

/- This file proves when a depth-first traversal returns the nodes of the breadth-first one. -/

namespace Codegraph.Graph
open Codegraph.Core Breadth Routes List

section Search

variable (store : GraphStore) (options : TraversalOptions) (startId : String)

/-- Every expanded node is near enough, and the graph holds only the start and neighbours of expanded nodes. -/
structure DfsWalk.Sound (walk : DfsWalk) : Prop where
  keyed : walk.graph.Keyed
  known : ∀ id, walk.graph.Holds id → store.Exists id
  begun : walk.graph.Holds startId ↔ options.includeStart = true
  held : ∀ id, walk.graph.Holds id → id = startId ∨ ∃ place ∈ walk.visited, options.Step store place id
  kept : ∀ place ∈ walk.visited, place = startId ∨ walk.graph.Holds place
  entered : ∀ place ∈ walk.visited, ∃ depth, Walk (options.Step store) {startId} depth place ∧
    Admits options.maxDepth (depth + 1)
  started : walk.visited ≠ [] → startId ∈ walk.visited

/-- A neighbour is handed over when it is the start or held, and without a depth limit it is expanded as well. -/
def DfsWalk.Handed (walk : DfsWalk) (next : String) : Prop :=
  next = startId ∨ walk.graph.Holds next ∧ (options.maxDepth = none → next ∈ walk.visited)

/-- A part of the walk drops nothing, and every node that it expands hands over all its neighbours. -/
structure DfsWalk.Grows (before after : DfsWalk) : Prop where
  visited : ∀ place ∈ before.visited, place ∈ after.visited
  holds : ∀ id, before.graph.Holds id → after.graph.Holds id
  done : ∀ place ∈ after.visited, place ∉ before.visited → ∀ next, options.Step store place next →
    after.Handed options startId next

/-- A stored node of an allowed kind may be entered. -/
def TraversalOptions.enters (id : String) : Bool := (store.nodeById id).any fun node => !options.skipsKind node.kind

/-- The neighbours that a node's edges allow to enter, in the order in which the edges list them first. -/
def TraversalOptions.listedNeighbors (place : String) : List String :=
  (((store.adjacentEdges place options.direction options.edgeKinds).map fun edge => neighborId edge place).filter
    (options.enters store)).eraseDups

/-- Where a walk with a depth limit goes on from a node is the search along the listed neighbours. -/
def TraversalOptions.visits (depth : Nat) (place : String) (visited : List String) : List String :=
  explore (options.listedNeighbors store) (options.maxDepth.getD 0 - depth) place visited

/-- The nodes that the walk can still expand. -/
def DfsWalk.room (walk : DfsWalk) : Nat := (store.nodes.filter fun node => node.id ∉ walk.visited).length

variable {store options startId} {walk before middle after : DfsWalk} {node : Node} {depth : Nat} {edge : Edge}

theorem DfsWalk.Grows.refl (walk : DfsWalk) : DfsWalk.Grows store options startId walk walk :=
  ⟨fun _ member => member, fun _ held => held, fun _ member fresh => absurd member fresh⟩

theorem DfsWalk.Grows.handed (grows : DfsWalk.Grows store options startId before after) {next : String}
    (handed : before.Handed options startId next) : after.Handed options startId next :=
  handed.imp_right fun ⟨held, expanded⟩ => ⟨grows.holds next held, fun none => grows.visited next (expanded none)⟩

theorem DfsWalk.Grows.trans (first : DfsWalk.Grows store options startId before middle)
    (second : DfsWalk.Grows store options startId middle after) : DfsWalk.Grows store options startId before after := by
  refine ⟨fun place member => second.visited place (first.visited place member),
    fun id held => second.holds id (first.holds id held), ?_⟩
  intro place member fresh next taken
  by_cases earlier : place ∈ middle.visited
  · exact second.handed (first.done place earlier fresh next taken)
  · exact second.done place member earlier next taken

theorem DfsWalk.Grows.room_le (grows : DfsWalk.Grows store options startId before after) :
    after.room store ≤ before.room store := by
  apply List.Sublist.length_le
  apply monotone_filter_right
  intro node fresh
  simp only [decide_eq_true_eq] at fresh ⊢
  exact fun seen => fresh (grows.visited node.id seen)

theorem DfsWalk.room_enter (walk : DfsWalk) (graph : Subgraph) (stored : store.nodeById node.id = some node)
    (fresh : node.id ∉ walk.visited) : DfsWalk.room store ⟨graph, node.id :: walk.visited⟩ < walk.room store := by
  have released := sum_unvisited store.nodes (fun _ => 1) (GraphStore.nodeById_mem stored) fresh
  simpa [DfsWalk.room, Nat.succ_le_iff] using released

theorem DfsWalk.Sound.len_lt (sound : walk.Sound store options startId) (large : store.nodes.length < options.limit) :
    ¬ walk.graph.len ≥ options.limit := by
  have bound := sound.keyed.len_le sound.known
  omega

/-- Entering a node marks it as expanded. -/
theorem DfsWalk.Sound.enter (sound : walk.Sound store options startId)
    (walked : Walk (options.Step store) {startId} depth node.id) (admits : Admits options.maxDepth (depth + 1))
    (rooted : node.id = startId ∨ startId ∈ walk.visited ∧ walk.graph.Holds node.id) :
    DfsWalk.Sound store options startId { walk with visited := node.id :: walk.visited } := by
  refine ⟨sound.keyed, sound.known, sound.begun, ?_, ?_, ?_, fun _ => ?_⟩
  · intro id holds
    rcases sound.held id holds with start | ⟨place, member, taken⟩
    · exact .inl start
    · exact .inr ⟨place, mem_cons_of_mem _ member, taken⟩
  · intro place member
    rcases mem_cons.mp member with rfl | old
    · exact rooted.imp_right And.right
    · exact sound.kept place old
  · intro place member
    rcases mem_cons.mp member with rfl | old
    · exact ⟨depth, walked, admits⟩
    · exact sound.entered place old
  · rcases rooted with same | ⟨started, -⟩
    · exact same ▸ mem_cons_self
    · exact mem_cons_of_mem _ started

/-- A fresh neighbour of an expanded node joins the graph. -/
theorem DfsWalk.Sound.join {place : String} {nextNode : Node} (sound : walk.Sound store options startId)
    (expanded : place ∈ walk.visited) (fresh : nextNode.id ∉ walk.visited)
    (stored : store.nodeById nextNode.id = some nextNode) (taken : options.Step store place nextNode.id) (edge : Edge) :
    DfsWalk.Sound store options startId { walk with graph := (walk.graph.setNode nextNode).pushEdge edge } ∧
      DfsWalk.Grows store options startId walk
        { walk with graph := (walk.graph.setNode nextNode).pushEdge edge } := by
  have joins (id : String) : ((walk.graph.setNode nextNode).pushEdge edge).Holds id ↔
      walk.graph.Holds id ∨ id = nextNode.id := walk.graph.setNode_holds nextNode id
  have started := sound.started (ne_nil_of_mem expanded)
  refine ⟨⟨(sound.keyed.setNode nextNode).pushEdge edge, ?_, ?_, ?_, ?_, sound.entered, sound.started⟩,
    ⟨fun _ member => member, fun id held => (joins id).mpr (.inl held), fun _ member unseen => absurd member unseen⟩⟩
  · intro id holds
    rcases (joins id).mp holds with old | rfl
    · exact sound.known id old
    · exact ⟨nextNode, stored⟩
  · rw [joins, ← sound.begun, or_iff_left]
    intro same
    exact fresh (same ▸ started)
  · intro id holds
    rcases (joins id).mp holds with old | rfl
    · exact sound.held id old
    · exact .inr ⟨place, expanded, taken⟩
  · intro other member
    exact (sound.kept other member).imp_right fun held => (joins other).mpr (.inl held)

/-- A call ends in a sound walk, and it expands its node unless the node lies at the depth limit. -/
def DfsWalk.Descends (store : GraphStore) (options : TraversalOptions) (startId : String) (before after : DfsWalk) :
    Prop :=
  after.Sound store options startId ∧ DfsWalk.Grows store options startId before after

/-- Following all edges of a node is following its listed neighbours. -/
theorem TraversalOptions.foldl_visits (depth : Nat) (place : String) (visited : List String) :
    (store.adjacentEdges place options.direction options.edgeKinds).foldl (fun visited edge =>
        if options.enters store (neighborId edge place) then options.visits store depth (neighborId edge place) visited
        else visited) visited =
      (options.listedNeighbors store place).foldl
        (fun visited far => options.visits store depth far visited) visited := by
  rw [listedNeighbors, foldl_eraseDups _ fun visited far between => explore_again between, foldl_filter,
    foldl_map]

/-- Following an edge hands over its far end, when descending is sound. -/
theorem DfsWalk.meet_descends {visited : List String} {edges : List Edge} {descend : Node → DfsWalk → Option DfsWalk}
    {limit : Nat} {visits : String → List String → List String}
    (passes : ∀ id visited, id ∈ visited → visits id visited = visited)
    (sound : walk.Sound store options startId) (large : store.nodes.length < options.limit)
    (expanded : node.id ∈ walk.visited) (earlier : ∀ place ∈ visited, place ∈ walk.visited)
    (listed : edge ∈ store.adjacentEdges node.id options.direction options.edgeKinds) (among : edge ∈ edges)
    (descends : ∀ nextNode walk, walk.Sound store options startId → store.nodeById nextNode.id = some nextNode →
      options.Step store node.id nextNode.id → startId ∈ walk.visited → walk.graph.Holds nextNode.id →
      walk.room store ≤ limit → ∃ after, descend nextNode walk = some after ∧
        DfsWalk.Descends store options startId walk after ∧
        (options.maxDepth = none → nextNode.id ∈ after.visited) ∧
        (options.maxDepth ≠ none → after.visited = visits nextNode.id walk.visited)) (room : walk.room store ≤ limit) :
    ∃ after, DfsWalk.meet options (store.nodesByIds (unvisitedNeighborIds edges node.id visited)) node.id descend walk
        edge = some after ∧ DfsWalk.Descends store options startId walk after ∧
      (∀ nextNode, store.nodeById (neighborId edge node.id) = some nextNode → options.skipsKind nextNode.kind = false →
        after.Handed options startId (neighborId edge node.id)) ∧
      (options.maxDepth ≠ none → after.visited = if options.enters store (neighborId edge node.id) then
        visits (neighborId edge node.id) walk.visited else walk.visited) := by
  unfold DfsWalk.meet
  rw [if_neg (sound.len_lt large)]
  dsimp only
  by_cases seen : neighborId edge node.id ∈ walk.visited
  · rw [if_pos seen]
    refine ⟨walk, rfl, ⟨sound, .refl walk⟩, fun _ _ _ =>
      (sound.kept _ seen).imp_right fun held => ⟨held, fun _ => seen⟩, fun _ => ?_⟩
    rw [passes _ _ seen, ite_self]
  rw [if_neg seen, nodesByIds_unvisited among fun old => seen (earlier _ old)]
  rcases stored : store.nodeById (neighborId edge node.id) with _ | nextNode
  · refine ⟨walk, rfl, ⟨sound, .refl walk⟩, fun nextNode known => ?_, fun _ => ?_⟩
    · cases known
    · simp [TraversalOptions.enters, stored]
  dsimp only
  by_cases skipped : options.skipsKind nextNode.kind = true
  · rw [if_pos skipped]
    refine ⟨walk, rfl, ⟨sound, .refl walk⟩, fun other same kind => ?_, fun _ => ?_⟩
    · cases same
      rw [skipped] at kind
      cases kind
    · simp [TraversalOptions.enters, stored, skipped]
  · rw [if_neg skipped]
    have same : nextNode.id = neighborId edge node.id := GraphStore.nodeById_id stored
    have taken : options.Step store node.id nextNode.id :=
      ⟨edge, nextNode, TraversalOptions.crosses_iff.mpr ⟨listed, same.symm⟩, same ▸ stored, by simpa using skipped⟩
    obtain ⟨joined, grows⟩ := sound.join expanded (same ▸ seen) (same ▸ stored) taken edge
    have held : ((walk.graph.setNode nextNode).pushEdge edge).Holds nextNode.id :=
      (walk.graph.setNode_holds nextNode _).mpr (.inr rfl)
    obtain ⟨after, ran, ⟨final, further⟩, entered, explored⟩ := descends nextNode _ joined (same ▸ stored) taken
      (sound.started (ne_nil_of_mem expanded)) held (grows.room_le.trans room)
    refine ⟨after, ran, ⟨final, grows.trans further⟩, fun _ _ _ => .inr ?_, fun limited => ?_⟩
    · rw [← same]
      exact ⟨further.holds _ held, entered⟩
    · rw [explored limited, same]
      simp [TraversalOptions.enters, stored, skipped]

/-- What each edge of a node settles stays settled over the loop. -/
theorem DfsWalk.foldlM_meet {meet : DfsWalk → Edge → Option DfsWalk} (settled : Edge → DfsWalk → Prop) (limit : Nat)
    (marked : List String) (edges : List Edge) (turn : List String → Edge → List String)
    (stays : ∀ edge before after, DfsWalk.Grows store options startId before after → settled edge before →
      settled edge after) (each : ∀ edge ∈ edges, ∀ walk, walk.Sound store options startId →
      (∀ place ∈ marked, place ∈ walk.visited) → walk.room store ≤ limit → ∃ after,
        meet walk edge = some after ∧ DfsWalk.Descends store options startId walk after ∧ settled edge after ∧
          (options.maxDepth ≠ none → after.visited = turn walk.visited edge))
    (sound : walk.Sound store options startId) (earlier : ∀ place ∈ marked, place ∈ walk.visited)
    (room : walk.room store ≤ limit) :
    ∃ after, edges.foldlM meet walk = some after ∧ DfsWalk.Descends store options startId walk after ∧
      (∀ edge ∈ edges, settled edge after) ∧
      (options.maxDepth ≠ none → after.visited = edges.foldl turn walk.visited) := by
  induction edges generalizing walk with
  | nil => exact ⟨walk, rfl, ⟨sound, .refl walk⟩, fun edge member => absurd member not_mem_nil, fun _ => rfl⟩
  | cons edge rest ih =>
    obtain ⟨middle, ran, ⟨kept, grows⟩, done, turned⟩ := each edge mem_cons_self walk sound earlier room
    obtain ⟨after, finished, ⟨final, further⟩, others, folded⟩ :=
      ih (fun other member => each other (mem_cons_of_mem _ member)) kept
        (fun place member => grows.visited place (earlier place member)) (grows.room_le.trans room)
    refine ⟨after, ?_, ⟨final, grows.trans further⟩, ?_, fun limited => ?_⟩
    · rw [foldlM_cons, ran]
      exact finished
    · intro other member
      rcases mem_cons.mp member with rfl | later
      · exact stays _ _ _ further done
      · exact others other later
    · rw [folded limited, turned limited, foldl_cons]

/-- An edge is settled when its far end, if it may be entered, is handed over. -/
def DfsWalk.Settles (store : GraphStore) (options : TraversalOptions) (startId nodeId : String) (edge : Edge)
    (walk : DfsWalk) : Prop :=
  ∀ nextNode, store.nodeById (neighborId edge nodeId) = some nextNode → options.skipsKind nextNode.kind = false →
    walk.Handed options startId (neighborId edge nodeId)

/-- Where a call stops, its node is visited or too deep, and its routes lead nowhere else. -/
theorem DfsWalk.Sound.stops (sound : walk.Sound store options startId) (large : store.nodes.length < options.limit)
    {id : String} {depth : Nat}
    (stops : id ∈ walk.visited ∨ walk.graph.len ≥ options.limit ∨ depthReached depth options.maxDepth = true) :
    (Admits options.maxDepth (depth + 1) → id ∈ walk.visited) ∧
      (options.maxDepth ≠ none → walk.visited = options.visits store depth id walk.visited) := by
  rcases stops with seen | full | deep
  · exact ⟨fun _ => seen, fun _ => (explore_visited seen).symm⟩
  · exact absurd full (sound.len_lt large)
  · refine ⟨fun admits => absurd admits (depthReached_iff.mp deep), fun limited => ?_⟩
    obtain ⟨bound, bounded⟩ := Option.ne_none_iff_exists'.mp limited
    have spent : options.maxDepth.getD 0 - depth = 0 := by
      simp only [depthReached, bounded, Option.any_some, decide_eq_true_eq] at deep
      simp only [bounded, Option.getD_some]
      omega
    rw [TraversalOptions.visits, spent]
    rfl

/-- With enough fuel a call visits its node and what can be reached over nodes that are not visited yet. -/
theorem dfsRecursive_descends (large : store.nodes.length < options.limit) (fuel : Nat) (node : Node) (depth : Nat)
    (walk : DfsWalk) (sound : walk.Sound store options startId) (stored : store.nodeById node.id = some node)
    (walked : Walk (options.Step store) {startId} depth node.id)
    (rooted : node.id = startId ∨ startId ∈ walk.visited ∧ walk.graph.Holds node.id) (enough : walk.room store < fuel) :
    ∃ after, dfsRecursive store options fuel node depth walk = some after ∧
      DfsWalk.Descends store options startId walk after ∧
      (Admits options.maxDepth (depth + 1) → node.id ∈ after.visited) ∧
      (options.maxDepth ≠ none → after.visited = options.visits store depth node.id walk.visited) := by
  induction fuel generalizing node depth walk with
  | zero => exact absurd enough (Nat.not_lt_zero _)
  | succ fuel ih =>
    rw [dfsRecursive]
    by_cases stops : node.id ∈ walk.visited ∨ walk.graph.len ≥ options.limit ∨
        depthReached depth options.maxDepth = true
    · rw [if_pos stops]
      exact ⟨walk, rfl, ⟨sound, .refl walk⟩, sound.stops large stops⟩
    rw [if_neg stops]
    simp only [not_or] at stops
    obtain ⟨fresh, -, shallow⟩ := stops
    have admits : Admits options.maxDepth (depth + 1) := by simpa [depthReached_iff] using shallow
    have entered := sound.enter walked admits rooted
    have room := walk.room_enter walk.graph stored fresh
    have follows : ∀ edge ∈ store.adjacentEdges node.id options.direction options.edgeKinds, ∀ reached : DfsWalk,
        reached.Sound store options startId → (∀ place ∈ node.id :: walk.visited, place ∈ reached.visited) →
        reached.room store ≤ DfsWalk.room store ⟨walk.graph, node.id :: walk.visited⟩ → ∃ after,
          DfsWalk.meet options (store.nodesByIds (unvisitedNeighborIds
            (store.adjacentEdges node.id options.direction options.edgeKinds) node.id (node.id :: walk.visited)))
            node.id (fun nextNode walk => dfsRecursive store options fuel nextNode (depth + 1) walk) reached edge =
              some after ∧
          DfsWalk.Descends store options startId reached after ∧
            DfsWalk.Settles store options startId node.id edge after ∧
            (options.maxDepth ≠ none → after.visited = if options.enters store (neighborId edge node.id) then
              options.visits store (depth + 1) (neighborId edge node.id) reached.visited else reached.visited) := by
      intro edge member reached sound earlier fewer
      refine DfsWalk.meet_descends (fun id visited seen => explore_visited seen) sound large
        (earlier _ mem_cons_self) earlier member member ?_ fewer
      intro nextNode further sound stored taken started held less
      obtain ⟨after, ran, descends, entered, explored⟩ := ih nextNode (depth + 1) further sound stored
        (walked.step taken) (.inr ⟨started, held⟩) (by omega)
      exact ⟨after, ran, descends, fun none => entered fun bound bounded => by simp [none] at bounded, explored⟩
    obtain ⟨after, ran, ⟨final, grows⟩, done, folded⟩ := DfsWalk.foldlM_meet
      (DfsWalk.Settles store options startId node.id) _ (node.id :: walk.visited) _
      (fun visited edge => if options.enters store (neighborId edge node.id) then
        options.visits store (depth + 1) (neighborId edge node.id) visited else visited)
      (fun edge before after grows settled nextNode known kind => grows.handed (settled nextNode known kind))
      follows entered (fun _ member => member) le_rfl
    refine ⟨after, ran, ⟨final, fun place member => grows.visited place (mem_cons_of_mem _ member), grows.holds,
      ?_⟩, fun _ => grows.visited _ mem_cons_self, fun limited => ?_⟩
    · intro place member unseen next taken
      by_cases here : place = node.id
      · subst here
        obtain ⟨edge, nextNode, crosses, known, kind⟩ := taken
        obtain ⟨listed, rfl⟩ := TraversalOptions.crosses_iff.mp crosses
        exact done edge listed nextNode known kind
      · refine grows.done place member ?_ next taken
        simp [here, unseen]
    · obtain ⟨bound, bounded⟩ := Option.ne_none_iff_exists'.mp limited
      have left : options.maxDepth.getD 0 - depth = (options.maxDepth.getD 0 - (depth + 1)) + 1 := by
        have below := admits bound bounded
        simp only [bounded, Option.getD_some]
        omega
      rw [folded limited, TraversalOptions.foldl_visits, TraversalOptions.visits, left, explore, if_neg fresh]
      rfl

/-- The nodes that the routes which come first, among those shorter than the depth limit, lead to. -/
def TraversalOptions.FirstReached (store : GraphStore) (options : TraversalOptions) (startId : String) (bound : Nat)
    (place : String) : Prop :=
  ∃ route ∈ firstRoutes (options.listedNeighbors store) bound startId, route.head? = some place

/-- The whole walk ends at a sound state whose expanded nodes have handed over all their neighbours. -/
theorem dfsRecursive_walk (large : store.nodes.length < options.limit) {startNode : Node}
    (found : store.nodeById startId = some startNode) (spare : Nat) :
    ∃ walk, dfsRecursive store options (store.nodes.length + 1 + spare) startNode 0
        ⟨options.startGraph startNode, []⟩ = some walk ∧ walk.Sound store options startId ∧
      (∀ place ∈ walk.visited, ∀ next, options.Step store place next → walk.Handed options startId next) ∧
      (Admits options.maxDepth 1 → startId ∈ walk.visited) ∧
      ∀ bound, options.maxDepth = some bound → ∀ place, place ∈ walk.visited ↔
        options.FirstReached store startId bound place := by
  have same : startNode.id = startId := GraphStore.nodeById_id found
  have holds (id : String) (held : (options.startGraph startNode).Holds id) : id = startId :=
    ((options.startGraph_holds startNode id).mp held).2.trans same
  have start : DfsWalk.Sound store options startId ⟨options.startGraph startNode, []⟩ := by
    refine ⟨options.startGraph_keyed startNode, ?_, ?_, fun id held => .inl (holds id held), by simp, by simp, by simp⟩
    · intro id held
      exact ⟨startNode, holds id held ▸ found⟩
    · rw [options.startGraph_holds startNode startId, and_iff_left same.symm]
  have room : DfsWalk.room store ⟨options.startGraph startNode, []⟩ < store.nodes.length + 1 + spare := by
    have bound := length_filter_le (fun node : Node => node.id ∉ ([] : List String)) store.nodes
    unfold DfsWalk.room
    dsimp only
    omega
  obtain ⟨walk, ran, ⟨sound, grows⟩, entered, explored⟩ :=
    dfsRecursive_descends large (store.nodes.length + 1 + spare) startNode 0 _ start (same ▸ found) (.here same)
      (.inl same) room
  refine ⟨walk, ran, sound, fun place member => grows.done place member not_mem_nil,
    fun admits => same ▸ entered admits, fun bound bounded place => ?_⟩
  rw [explored (by simp [bounded]), TraversalOptions.visits, bounded, same]
  exact mem_explore_iff (fun place => nodup_eraseDups _) bound startId place

/-- No node is lost when every node nearer than the depth limit that no first route leads to has no neighbours but the
start and the neighbours of nodes that a first route leads to. -/
def TraversalOptions.LosesNothing (store : GraphStore) (options : TraversalOptions) (startId : String) : Prop :=
  ∀ bound, options.maxDepth = some bound → ∀ depth place, At (options.Step store) {startId} depth place →
    depth < bound → ¬ options.FirstReached store startId bound place → ∀ next, options.Step store place next →
    next = startId ∨ ∃ other, options.FirstReached store startId bound other ∧ options.Step store other next

theorem DfsWalk.Sound.holds_iff (sound : walk.Sound store options startId)
    (done : ∀ place ∈ walk.visited, ∀ next, options.Step store place next → walk.Handed options startId next)
    (id : String) : walk.graph.Holds id ∨ id = startId ↔
      id = startId ∨ ∃ place ∈ walk.visited, options.Step store place id := by
  constructor
  · rintro (held | start)
    · exact sound.held id held
    · exact .inl start
  · rintro (start | ⟨place, member, taken⟩)
    · exact .inr start
    · exact ((done place member id taken).imp_right And.left).symm

/-- A sound walk holds only what is near enough. -/
theorem DfsWalk.Sound.within (sound : walk.Sound store options startId) {id : String}
    (held : walk.graph.Holds id) : Within (options.Step store) {startId} options.maxDepth id := by
  rcases sound.held id held with rfl | ⟨place, member, taken⟩
  · exact ⟨0, .here rfl, fun _ _ => Nat.zero_le _⟩
  · obtain ⟨depth, walked, admits⟩ := sound.entered place member
    exact ⟨depth + 1, walked.step taken, admits⟩

/-- A walk holds everything that is near enough exactly when no node is lost. -/
theorem DfsWalk.Sound.complete_iff (sound : walk.Sound store options startId)
    (done : ∀ place ∈ walk.visited, ∀ next, options.Step store place next → walk.Handed options startId next)
    (entered : Admits options.maxDepth 1 → startId ∈ walk.visited)
    (visited : ∀ bound, options.maxDepth = some bound → ∀ place, place ∈ walk.visited ↔
      options.FirstReached store startId bound place) :
    (∀ id, walk.graph.Holds id ∨ id = startId ↔ Within (options.Step store) {startId} options.maxDepth id) ↔
      options.LosesNothing store startId := by
  constructor
  · intro exact_ bound bounded depth place at_ near _ next taken
    have holds := (exact_ next).mpr ⟨depth + 1, at_.1.step taken, fun other limit => by
      rw [bounded, Option.some.injEq] at limit
      omega⟩
    refine ((sound.holds_iff done next).mp holds).imp_right ?_
    rintro ⟨other, expanded, step⟩
    exact ⟨other, (visited bound bounded other).mp expanded, step⟩
  · intro lossless id
    constructor
    · rintro (held | rfl)
      · exact sound.within held
      · exact ⟨0, .here rfl, fun _ _ => Nat.zero_le _⟩
    · intro within
      obtain ⟨depth, at_, admits⟩ := within.at
      clear within
      induction depth generalizing id with
      | zero =>
        have start : id ∈ ({startId} : Set String) := at_zero_iff.mp at_
        exact .inr start
      | succ depth ih =>
        obtain ⟨before, nearer, taken⟩ := at_.pred
        by_cases expanded : before ∈ walk.visited
        · exact ((done before expanded id taken).imp_right And.left).symm
        rcases limited : options.maxDepth with _ | bound
        · -- Without a depth limit the predecessor is expanded: it was handed over, or it is the start.
          have started : startId ∈ walk.visited := entered (admits.mono (by omega))
          rcases ih before nearer (admits.mono (Nat.le_succ depth)) with held | rfl
          · rcases sound.held before held with rfl | ⟨other, earlier, step⟩
            · exact absurd started expanded
            · rcases done other earlier before step with rfl | ⟨-, visits⟩
              · exact absurd started expanded
              · exact absurd (visits limited) expanded
          · exact absurd started expanded
        · have near : depth < bound := admits bound limited
          have lost : ¬ options.FirstReached store startId bound before := fun reached =>
            expanded ((visited bound limited before).mpr reached)
          refine (sound.holds_iff done id).mpr
            ((lossless bound limited depth before nearer near lost id taken).imp_right ?_)
          rintro ⟨other, reached, step⟩
          exact ⟨other, (visited bound limited other).mpr reached, step⟩

end Search

/-- The depth-first traversal returns the nodes of the breadth-first one, which are the nodes within the depth limit,
exactly when no node is lost behind the routes that come first. Without a depth limit none can be. -/
theorem dfs_agrees_iff (store : GraphStore) (startId : String) (options : TraversalOptions)
    (large : store.nodes.length < options.limit) (startNode : Node) (found : store.nodeById startId = some startNode)
    (spare : Nat) : ∃ bfs dfs : Subgraph,
      traverseBfs store (bfsRounds store options + spare) startId options = some bfs ∧
      traverseDfs store (store.nodes.length + 1 + spare) startId options = some dfs ∧
      ((∀ id, dfs.Holds id ↔ bfs.Holds id) ∧
        (∀ id, dfs.Holds id ∨ id = startId ↔ Within (options.Step store) {startId} options.maxDepth id) ↔
        options.LosesNothing store startId) := by
  obtain ⟨bfsWalk, tree, bfsRan, bfsSound, leveled⟩ := traverseBfs_walk options found spare
  obtain ⟨levels, ended⟩ := leveled large
  obtain ⟨walk, ran, sound, done, entered, visited⟩ := dfsRecursive_walk large found spare
  have dfsRan : traverseDfs store (store.nodes.length + 1 + spare) startId options =
      some { walk.graph with roots := [startId] } := by
    rw [traverseDfs, found]
    dsimp only
    rw [ran]
    rfl
  refine ⟨_, _, bfsRan, dfsRan, ?_⟩
  rw [← sound.complete_iff done entered visited]
  have started : startId ∈ bfsWalk.visited :=
    (levels.visited_iff ended startId).mpr ⟨0, .here rfl, fun _ _ => Nat.zero_le _⟩
  constructor
  · exact And.right
  · intro exact_
    refine ⟨fun id => ?_, exact_⟩
    by_cases start : id = startId
    · subst start
      exact sound.begun.trans bfsSound.begun.symm
    · have breadth := (bfsSound.holds_iff ended started id).trans (levels.visited_iff ended id)
      have same : walk.graph.Holds id ∨ id = startId ↔ bfsWalk.graph.Holds id ∨ id = startId :=
        (exact_ id).trans breadth.symm
      rwa [or_iff_left start, or_iff_left start] at same

/-- A long way to a node is listed before a short one. -/
def detourStore : GraphStore :=
  GraphStore.inTableOrder (["s", "b", "c", "d", "e"].map fun id => bareNode id .function)
    [bareEdge "s" "b" .calls, bareEdge "s" "c" .calls, bareEdge "b" "c" .calls, bareEdge "c" "d" .calls,
      bareEdge "d" "e" .calls] (by decide)

def threeSteps : TraversalOptions := { TraversalOptions.default with maxDepth := some 3 }

/-- Without a depth limit the detour costs nothing. -/
theorem unlimited_detour_agrees : detourStore.nodes.length < TraversalOptions.default.limit ∧
    ∃ bfs dfs : Subgraph,
      traverseBfs detourStore (bfsRounds detourStore TraversalOptions.default + 0) "s" TraversalOptions.default =
        some bfs ∧
      traverseDfs detourStore (detourStore.nodes.length + 1 + 0) "s" TraversalOptions.default = some dfs ∧
      ∀ id, dfs.Holds id ↔ bfs.Holds id := by
  have large : detourStore.nodes.length < TraversalOptions.default.limit := by decide
  obtain ⟨bfs, dfs, bfsRan, dfsRan, agrees⟩ :=
    dfs_agrees_iff detourStore "s" .default large (bareNode "s" .function) rfl 0
  have lossless : TraversalOptions.default.LosesNothing detourStore "s" := fun bound bounded => by cases bounded
  exact ⟨large, bfs, dfs, bfsRan, dfsRan, (agrees.mpr lossless).1⟩

/-- Three steps reach the last node, but the depth-first traversal expands the node before it too late. -/
theorem detour_loses_node : detourStore.nodes.length < threeSteps.limit ∧
    (∃ bfs, traverseBfs detourStore (bfsRounds detourStore threeSteps) "s" threeSteps = some bfs ∧ bfs.Holds "e") ∧
    ∃ dfs, traverseDfs detourStore 6 "s" threeSteps = some dfs ∧ ¬ dfs.Holds "e" := by
  refine ⟨by decide, ⟨_, rfl, rfl⟩, _, rfl, ?_⟩
  intro held
  cases held

end Codegraph.Graph
