import Codegraph.Graph.Traversal
import Mathlib.Algebra.Order.BigOperators.Group.List
import Mathlib.Algebra.Order.Group.Nat
import Mathlib.Data.List.Induction
import Mathlib.Algebra.GroupWithZero.Nat

/- This file proves what a breadth-first traversal returns. -/

namespace Codegraph.Graph
open Codegraph.Core Breadth List

/-- A returned edge and the node that it was returned for. -/
structure Crossing where
  edge : Edge
  far : String
  deriving DecidableEq

def Crossing.near (crossing : Crossing) : String := neighborId crossing.edge crossing.far

theorem depthReached_iff {depth : Nat} {maxDepth : Option Nat} :
    depthReached depth maxDepth = true ↔ ¬ Admits maxDepth (depth + 1) := by
  cases maxDepth with
  | none => simp [depthReached, Admits]
  | some bound =>
    simp only [depthReached, Option.any_some, decide_eq_true_eq, Admits, Option.some.injEq, forall_eq']
    omega

theorem Subgraph.len_le_setNode (graph : Subgraph) (node : Node) : graph.len ≤ (graph.setNode node).len := by
  unfold Subgraph.len Subgraph.setNode
  split <;> simp

section Expansion

variable (store : GraphStore) (options : TraversalOptions) (entry : BfsEntry)

/-- Going through the edges of a node adds fresh neighbours to the graph and to the end of the queue. -/
structure BfsWalk.Expansion (edges : List Edge) (before after : BfsWalk) (found : List BfsEntry) : Prop where
  visited : after.visited = before.visited
  kept : after.graph.edges = before.graph.edges
  queue : after.queue = before.queue ++ found
  arrives : ∀ other ∈ found, other.depth = entry.depth + 1 ∧ store.nodeById other.node.id = some other.node ∧
    options.skipsKind other.node.kind = false ∧ other.node.id ∉ before.visited ∧
    ∃ edge ∈ edges, other.edge = some edge ∧ neighborId edge entry.node.id = other.node.id
  holds : ∀ id, after.graph.Holds id ↔ before.graph.Holds id ∨ ∃ other ∈ found, other.node.id = id
  keyed : before.graph.Keyed → after.graph.Keyed
  grows : before.graph.len ≤ after.graph.len
  bounded : before.graph.len ≤ max options.limit 1 → after.graph.len ≤ max options.limit 1
  short : found.length ≤ edges.length
  complete : after.graph.len < options.limit → ∀ edge ∈ edges, neighborId edge entry.node.id ∉ before.visited →
    ∀ node, store.nodeById (neighborId edge entry.node.id) = some node → options.skipsKind node.kind = false →
    ∃ other ∈ found, other.node.id = neighborId edge entry.node.id

variable {store options entry} {before after : BfsWalk} {found : List BfsEntry} {edges : List Edge} {edge : Edge}
  {neighborNodes : String → Option Node}

theorem BfsWalk.Expansion.refl (walk : BfsWalk) : BfsWalk.Expansion store options entry [] walk walk [] :=
  ⟨rfl, rfl, by simp, by simp, by simp, id, le_rfl, id, le_rfl, by simp⟩

section

variable (expansion : BfsWalk.Expansion store options entry edges before after found)
include expansion

/-- An edge that adds nothing leads to a place that may not be added, unless the graph is full. -/
theorem BfsWalk.Expansion.pass
    (nothing : after.graph.len < options.limit → neighborId edge entry.node.id ∉ before.visited →
      ∀ node, store.nodeById (neighborId edge entry.node.id) = some node → options.skipsKind node.kind = true) :
    BfsWalk.Expansion store options entry (edges ++ [edge]) before after found := by
  refine ⟨expansion.visited, expansion.kept, expansion.queue, ?_, expansion.holds, expansion.keyed, expansion.grows,
    expansion.bounded, expansion.short.trans (by simp), ?_⟩
  · intro other member
    obtain ⟨deeper, stored, kind, fresh, by_, listed, through⟩ := expansion.arrives other member
    exact ⟨deeper, stored, kind, fresh, by_, mem_append_left _ listed, through⟩
  · intro room other member fresh node stored kind
    rcases mem_append.mp member with old | new
    · exact expansion.complete room other old fresh node stored kind
    · rw [mem_singleton.mp new] at fresh stored
      rw [nothing room fresh node stored] at kind
      cases kind

/-- An edge to a fresh neighbour adds it to the graph and to the queue. -/
theorem BfsWalk.Expansion.add
    {nextNode : Node} (room : after.graph.len < options.limit) (fresh : neighborId edge entry.node.id ∉ before.visited)
    (stored : store.nodeById (neighborId edge entry.node.id) = some nextNode)
    (kind : options.skipsKind nextNode.kind = false) : BfsWalk.Expansion store options entry (edges ++ [edge]) before
      { after with
        graph := after.graph.setNode nextNode
        queue := after.queue ++ [⟨nextNode, some edge, entry.depth + 1⟩] }
      (found ++ [⟨nextNode, some edge, entry.depth + 1⟩]) := by
  have same : nextNode.id = neighborId edge entry.node.id := GraphStore.nodeById_id stored
  refine ⟨expansion.visited, expansion.kept, ?_, ?_, ?_, fun keyed => (expansion.keyed keyed).setNode nextNode,
    expansion.grows.trans (Subgraph.len_le_setNode _ _), ?_, ?_, ?_⟩
  · rw [expansion.queue, append_assoc]
  · intro other member
    rcases mem_append.mp member with old | new
    · obtain ⟨deeper, known, allowed, unseen, by_, listed, through⟩ := expansion.arrives other old
      exact ⟨deeper, known, allowed, unseen, by_, mem_append_left _ listed, through⟩
    · rw [mem_singleton.mp new]
      exact ⟨rfl, same ▸ stored, kind, same ▸ fresh, edge, by simp, rfl, same.symm⟩
  · intro id
    dsimp only
    rw [Subgraph.setNode_holds, expansion.holds]
    simp only [mem_append, mem_singleton, or_and_right, exists_or, exists_eq_left, or_assoc, eq_comm]
  · intro _
    have step := Subgraph.setNode_len after.graph nextNode
    dsimp only
    omega
  · simpa using expansion.short
  · intro _ other member unseen node known allowed
    rcases mem_append.mp member with old | new
    · obtain ⟨reached, listed, arrives⟩ := expansion.complete room other old unseen node known allowed
      exact ⟨reached, mem_append_left _ listed, arrives⟩
    · rw [mem_singleton.mp new]
      exact ⟨_, mem_append_right _ (mem_singleton_self _), same⟩

/-- Meeting an edge extends the expansion of its node. -/
theorem BfsWalk.Expansion.meet (looks : neighborId edge entry.node.id ∉ before.visited →
      neighborNodes (neighborId edge entry.node.id) = store.nodeById (neighborId edge entry.node.id)) :
    ∃ more, BfsWalk.Expansion store options entry (edges ++ [edge]) before
      (BfsWalk.meet options neighborNodes entry after edge) more := by
  unfold BfsWalk.meet
  by_cases full : after.graph.len ≥ options.limit
  · rw [if_pos full]
    exact ⟨found, expansion.pass fun room => absurd room (by omega)⟩
  rw [if_neg full]
  dsimp only
  by_cases seen : neighborId edge entry.node.id ∈ after.visited
  · rw [if_pos seen]
    exact ⟨found, expansion.pass fun _ fresh => absurd (expansion.visited ▸ seen) fresh⟩
  rw [if_neg seen]
  rw [expansion.visited] at seen
  rw [looks seen]
  rcases stored : store.nodeById (neighborId edge entry.node.id) with _ | nextNode
  · refine ⟨found, expansion.pass fun _ _ node known => ?_⟩
    rw [stored] at known
    cases known
  dsimp only
  by_cases skipped : options.skipsKind nextNode.kind = true
  · rw [if_pos skipped]
    refine ⟨found, expansion.pass fun _ _ node known => ?_⟩
    rw [stored, Option.some.injEq] at known
    exact known ▸ skipped
  · rw [if_neg skipped]
    exact ⟨_, expansion.add (by omega) seen stored (by simpa using skipped)⟩

end

/-- Expanding a node goes through all its edges. -/
theorem BfsWalk.expansion (store : GraphStore) (options : TraversalOptions) (entry : BfsEntry) (walk : BfsWalk) :
    ∃ found, BfsWalk.Expansion store options entry
    (store.adjacentEdges entry.node.id options.direction options.edgeKinds) walk
      (walk.expand store options entry) found := by
  have whole (edges listed : List Edge) (within : ∀ edge ∈ edges, edge ∈ listed) :
      ∃ found, BfsWalk.Expansion store options entry edges walk
        (edges.foldl (.meet options (store.nodesByIds (unvisitedNeighborIds listed entry.node.id walk.visited))
          entry) walk) found := by
    induction edges using reverseRecOn with
    | nil => exact ⟨[], .refl walk⟩
    | append_singleton edges edge ih =>
      obtain ⟨found, expansion⟩ := ih fun other member => within other (mem_append_left _ member)
      rw [foldl_append, foldl_cons, foldl_nil]
      exact expansion.meet fun fresh => nodesByIds_unvisited (within edge (by simp)) fresh
  obtain ⟨found, expansion⟩ := whole _ _ fun _ member => member
  have order (edge : Edge) : edge ∈
    (store.adjacentEdges entry.node.id options.direction options.edgeKinds).insertionSort
      (fun first second => structuralPriority first ≤ structuralPriority second) ↔
        edge ∈ store.adjacentEdges entry.node.id options.direction options.edgeKinds := mem_insertionSort _
  refine ⟨found, expansion.visited, expansion.kept, expansion.queue, ?_, expansion.holds, expansion.keyed,
    expansion.grows, expansion.bounded, ?_, ?_⟩
  · intro other member
    obtain ⟨deeper, stored, kind, fresh, edge, listed, through⟩ := expansion.arrives other member
    exact ⟨deeper, stored, kind, fresh, edge, (order edge).mp listed, through⟩
  · simpa only [length_insertionSort] using expansion.short
  · intro room edge member
    exact expansion.complete room edge ((order edge).mpr member)

end Expansion

section Search

variable (store : GraphStore) (options : TraversalOptions) (startId : String)

/-- Each queued node is the start, or some visited node has an allowed edge to it and the graph holds it. -/
def BfsEntry.Arrives (entry : BfsEntry) (walk : BfsWalk) : Prop :=
  match entry.edge with
  | none => entry.node.id = startId
  | some edge => entry.node.id ≠ startId ∧ walk.graph.Holds entry.node.id ∧
      neighborId edge entry.node.id ∈ walk.visited ∧
      options.Crosses store (neighborId edge entry.node.id) edge entry.node.id

/-- Every visited node besides the start was returned with one allowed edge from another visited node. -/
structure BfsWalk.Sound (tree : List Crossing) (walk : BfsWalk) : Prop where
  keyed : walk.graph.Keyed
  bounded : walk.graph.len ≤ max options.limit 1
  edges : walk.graph.edges = tree.map Crossing.edge
  crosses : ∀ crossing ∈ tree, options.Crosses store crossing.near crossing.edge crossing.far ∧
    crossing.near ∈ walk.visited ∧ walk.graph.Holds crossing.far
  once : (tree.map Crossing.far).Nodup
  marked : ∀ id ∈ tree.map Crossing.far, id ∈ walk.visited ∧ id ≠ startId
  spanned : ∀ id ∈ walk.visited, id = startId ∨ id ∈ tree.map Crossing.far
  started : walk.visited ≠ [] → startId ∈ walk.visited
  queued : ∀ entry ∈ walk.queue, store.nodeById entry.node.id = some entry.node ∧
    entry.Arrives store options startId walk
  held : ∀ id, walk.graph.Holds id → id = startId ∨ id ∈ walk.visited ∨ ∃ entry ∈ walk.queue, entry.node.id = id
  known : ∀ id, walk.graph.Holds id → store.Exists id
  begun : walk.graph.Holds startId ↔ options.includeStart = true

/-- While the graph is not full, the queue is a frontier, and each tree edge leads one step further. -/
structure BfsWalk.Leveled (tree : List Crossing) (walk : BfsWalk) : Prop where
  frontier : Frontier (options.Step store) {startId} options.maxDepth (· ∈ walk.visited)
    (walk.queue.map fun entry => (entry.node.id, entry.depth))
  distances : ∀ crossing ∈ tree, ∃ depth, At (options.Step store) {startId} depth crossing.near ∧
    At (options.Step store) {startId} (depth + 1) crossing.far
  entered : ∀ entry ∈ walk.queue, ∀ edge, entry.edge = some edge → ∃ depth, entry.depth = depth + 1 ∧
    At (options.Step store) {startId} depth (neighborId edge entry.node.id)
  reached : ∀ id ∈ walk.visited, Within (options.Step store) {startId} options.maxDepth id

/-- The rounds that the traversal may still take. -/
def BfsWalk.work (walk : BfsWalk) : Nat :=
  walk.queue.length + ((store.nodes.filter fun node => node.id ∉ walk.visited).map fun node =>
    (store.adjacentEdges node.id options.direction options.edgeKinds).length).sum

def bfsRounds : Nat :=
  (store.nodes.map fun node => (store.adjacentEdges node.id options.direction options.edgeKinds).length).sum + 2

variable {store options startId} {tree : List Crossing} {walk : BfsWalk} {entry : BfsEntry} {queue : List BfsEntry}

/-- Visiting a stored node releases its weight. -/
theorem sum_unvisited (nodes : List Node) (weight : Node → Nat) {node : Node} {visited : List String}
    (member : node ∈ nodes) (fresh : node.id ∉ visited) :
    ((nodes.filter fun other => other.id ∉ node.id :: visited).map weight).sum + weight node ≤
      ((nodes.filter fun other => other.id ∉ visited).map weight).sum := by
  have fewer (nodes : List Node) : ((nodes.filter fun other => other.id ∉ node.id :: visited).map weight).sum ≤
      ((nodes.filter fun other => other.id ∉ visited).map weight).sum := by
    refine List.Sublist.sum_le_sum (List.Sublist.map weight ?_) fun _ _ => Nat.zero_le _
    apply monotone_filter_right
    simp
  induction nodes with
  | nil => cases member
  | cons head rest ih =>
    rcases mem_cons.mp member with rfl | later
    · have tail := fewer rest
      rw [filter_cons_of_neg (by simp), filter_cons_of_pos (by simpa using fresh), map_cons,
        sum_cons]
      omega
    · have tail := ih later
      by_cases seen : head.id ∈ visited
      · rw [filter_cons_of_neg (by simp [seen]), filter_cons_of_neg (by simpa using seen)]
        exact tail
      · by_cases same : head.id = node.id
        · rw [filter_cons_of_neg (by simp [same]), filter_cons_of_pos (by simpa using seen), map_cons,
            sum_cons]
          omega
        · rw [filter_cons_of_pos (by simp [same, seen]), filter_cons_of_pos (by simpa using seen),
            map_cons, map_cons, sum_cons, sum_cons]
          omega

/-- The edge of a visited entry joins the tree. -/
def BfsEntry.crossing (entry : BfsEntry) : List Crossing :=
  match entry.edge with
  | some edge => [⟨edge, entry.node.id⟩]
  | none => []

/-- The walk once an entry is marked and its edge returned, before it is expanded. -/
def BfsWalk.mark (walk : BfsWalk) (entry : BfsEntry) (queue : List BfsEntry) : BfsWalk where
  graph := match entry.edge with
    | some edge => walk.graph.pushEdge edge
    | none => walk.graph
  visited := entry.node.id :: walk.visited
  queue := queue

theorem BfsWalk.mark_holds (walk : BfsWalk) (entry : BfsEntry) (queue : List BfsEntry) (id : String) :
    (walk.mark entry queue).graph.Holds id ↔ walk.graph.Holds id := by
  unfold BfsWalk.mark
  split <;> exact .rfl

theorem BfsWalk.mark_len (walk : BfsWalk) (entry : BfsEntry) (queue : List BfsEntry) :
    (walk.mark entry queue).graph.len = walk.graph.len := by
  unfold BfsWalk.mark
  split <;> rfl

theorem BfsWalk.Sound.started_of_queued (sound : walk.Sound store options startId tree)
    (popped : walk.queue = entry :: queue) : startId ∈ entry.node.id :: walk.visited := by
  have arrives := (sound.queued entry (popped ▸ mem_cons_self)).2
  unfold BfsEntry.Arrives at arrives
  split at arrives
  · exact arrives ▸ mem_cons_self
  · exact mem_cons_of_mem _ (sound.started (ne_nil_of_mem arrives.2.2.1))

/-- An entry keeps arriving while the graph and the visited nodes grow. -/
theorem BfsEntry.Arrives.mono {after : BfsWalk} (arrives : entry.Arrives store options startId walk)
    (holds : ∀ id, walk.graph.Holds id → after.graph.Holds id) (visited : ∀ id ∈ walk.visited, id ∈ after.visited) :
    entry.Arrives store options startId after := by
  unfold BfsEntry.Arrives at arrives ⊢
  split at arrives
  · exact arrives
  · obtain ⟨other, held, near, crosses⟩ := arrives
    exact ⟨other, holds _ held, visited _ near, crosses⟩

/-- The crossing of an entry that arrives leads over an allowed edge from a visited node to the entry. -/
theorem BfsEntry.Arrives.crosses (arrives : entry.Arrives store options startId walk) {crossing : Crossing}
    (member : crossing ∈ entry.crossing) : crossing.far = entry.node.id ∧ crossing.far ≠ startId ∧
      options.Crosses store crossing.near crossing.edge crossing.far ∧ crossing.near ∈ walk.visited ∧
      walk.graph.Holds crossing.far := by
  unfold BfsEntry.crossing at member
  unfold BfsEntry.Arrives at arrives
  cases found : entry.edge with
  | none =>
    rw [found] at member
    cases member
  | some edge =>
    rw [found] at member arrives
    obtain ⟨other, held, near, crosses⟩ := arrives
    rw [mem_singleton.mp member]
    exact ⟨rfl, other, crosses, near, held⟩

/-- Only the start arrives without a crossing. -/
theorem BfsEntry.Arrives.far (arrives : entry.Arrives store options startId walk) :
    entry.node.id = startId ∧ entry.crossing.map Crossing.far = [] ∨
      entry.crossing.map Crossing.far = [entry.node.id] := by
  unfold BfsEntry.crossing
  unfold BfsEntry.Arrives at arrives
  cases found : entry.edge with
  | none =>
    rw [found] at arrives
    exact .inl ⟨arrives, rfl⟩
  | some edge => exact .inr rfl

/-- Marking a fresh entry returns its edge and visits its node. -/
theorem BfsWalk.Sound.mark (sound : walk.Sound store options startId tree) (popped : walk.queue = entry :: queue)
    (fresh : entry.node.id ∉ walk.visited) :
    (walk.mark entry queue).Sound store options startId (tree ++ entry.crossing) := by
  obtain ⟨stored, arrives⟩ := sound.queued entry (popped ▸ mem_cons_self)
  have present := sound.started_of_queued popped
  have later {other : BfsEntry} (member : other ∈ queue) : other ∈ walk.queue := popped ▸ mem_cons_of_mem _ member
  have holds {id : String} (held : walk.graph.Holds id) : (walk.mark entry queue).graph.Holds id :=
    (BfsWalk.mark_holds _ _ _ _).mpr held
  have visited {id : String} (seen : id ∈ walk.visited) : id ∈ (walk.mark entry queue).visited :=
    mem_cons_of_mem _ seen
  refine ⟨?_, ?_, ?_, ?_, ?_, ?_, ?_, fun _ => present, ?_, ?_, ?_, (BfsWalk.mark_holds _ _ _ _).trans sound.begun⟩
  · unfold BfsWalk.mark
    split
    · exact sound.keyed.pushEdge _
    · exact sound.keyed
  · rw [BfsWalk.mark_len]
    exact sound.bounded
  · unfold BfsWalk.mark BfsEntry.crossing
    cases entry.edge <;> simp [sound.edges]
  · intro crossing member
    rcases mem_append.mp member with old | new
    · obtain ⟨crosses, near, held⟩ := sound.crosses crossing old
      exact ⟨crosses, visited near, holds held⟩
    · obtain ⟨-, -, crosses, near, held⟩ := arrives.crosses new
      exact ⟨crosses, visited near, holds held⟩
  · rw [map_append]
    refine nodup_append.mpr ⟨sound.once, ?_, ?_⟩
    · rcases arrives.far with ⟨-, none⟩ | one
      · rw [none]
        exact nodup_nil
      · rw [one]
        exact nodup_singleton _
    · intro id old other new same
      obtain ⟨crossing, member, rfl⟩ := mem_map.mp new
      rw [(arrives.crosses member).1] at same
      exact fresh (same ▸ (sound.marked id old).1)
  · intro id member
    rw [map_append] at member
    rcases mem_append.mp member with old | new
    · obtain ⟨seen, other⟩ := sound.marked id old
      exact ⟨visited seen, other⟩
    · obtain ⟨crossing, among, rfl⟩ := mem_map.mp new
      obtain ⟨same, other, -⟩ := arrives.crosses among
      exact ⟨same ▸ mem_cons_self, other⟩
  · intro id member
    rw [map_append, mem_append]
    rcases mem_cons.mp member with rfl | old
    · rcases arrives.far with ⟨start, -⟩ | one
      · exact .inl start
      · exact .inr (.inr (one ▸ mem_singleton_self _))
    · rcases sound.spanned id old with start | among
      · exact .inl start
      · exact .inr (.inl among)
  · intro other member
    obtain ⟨known, comes⟩ := sound.queued other (later member)
    exact ⟨known, comes.mono (fun _ => holds) fun _ => visited⟩
  · intro id held
    rw [BfsWalk.mark_holds] at held
    rcases sound.held id held with start | seen | ⟨other, member, rfl⟩
    · exact .inl start
    · exact .inr (.inl (visited seen))
    · rw [popped] at member
      rcases mem_cons.mp member with rfl | after
      · exact .inr (.inl mem_cons_self)
      · exact .inr (.inr ⟨other, after, rfl⟩)
  · intro id held
    exact sound.known id ((BfsWalk.mark_holds _ _ _ _).mp held)

/-- Expanding a marked node keeps the walk sound. -/
theorem BfsWalk.Sound.expand {after : BfsWalk} {found : List BfsEntry} (sound : walk.Sound store options startId tree)
    (here : entry.node.id ∈ walk.visited) (present : startId ∈ walk.visited)
    (expansion : BfsWalk.Expansion store options entry
      (store.adjacentEdges entry.node.id options.direction options.edgeKinds) walk after found) :
    after.Sound store options startId tree := by
  have grown {id : String} (held : walk.graph.Holds id) : after.graph.Holds id := (expansion.holds id).mpr (.inl held)
  refine ⟨expansion.keyed sound.keyed, expansion.bounded sound.bounded, expansion.kept.trans sound.edges, ?_,
    sound.once,
    ?_, ?_, ?_, ?_, ?_, ?_, ?_⟩
  · intro crossing member
    obtain ⟨crosses, near, held⟩ := sound.crosses crossing member
    exact ⟨crosses, expansion.visited ▸ near, grown held⟩
  · rw [expansion.visited]
    exact sound.marked
  · rw [expansion.visited]
    exact sound.spanned
  · rw [expansion.visited]
    exact sound.started
  · intro other member
    rw [expansion.queue] at member
    rcases mem_append.mp member with old | new
    · obtain ⟨known, comes⟩ := sound.queued other old
      exact ⟨known, comes.mono (fun _ => grown) fun _ seen => expansion.visited ▸ seen⟩
    · obtain ⟨-, known, -, fresh, edge, listed, named, through⟩ := expansion.arrives other new
      have crosses : options.Crosses store entry.node.id edge other.node.id :=
        TraversalOptions.crosses_iff.mpr ⟨listed, through⟩
      refine ⟨known, ?_⟩
      unfold BfsEntry.Arrives
      rw [named]
      dsimp only
      rw [crosses.neighbors.2, expansion.visited]
      exact ⟨fun same => fresh (same ▸ present), (expansion.holds _).mpr (.inr ⟨other, new, rfl⟩), here, crosses⟩
  · intro id holds
    rw [expansion.visited, expansion.queue]
    rcases (expansion.holds id).mp holds with old | ⟨other, new, rfl⟩
    · rcases sound.held id old with start | seen | ⟨other, member, rfl⟩
      · exact .inl start
      · exact .inr (.inl seen)
      · exact .inr (.inr ⟨other, mem_append_left _ member, rfl⟩)
    · exact .inr (.inr ⟨other, mem_append_right _ new, rfl⟩)
  · intro id holds
    rcases (expansion.holds id).mp holds with old | ⟨other, new, rfl⟩
    · exact sound.known id old
    · exact ⟨other.node, (expansion.arrives other new).2.1⟩
  · rw [expansion.holds, ← sound.begun, or_iff_left]
    rintro ⟨other, new, same⟩
    exact (expansion.arrives other new).2.2.2.1 (same ▸ present)

/-- What visiting an entry adds to the queue. -/
theorem BfsWalk.visit_cases (walk : BfsWalk) (entry : BfsEntry) (queue : List BfsEntry) :
    (¬ Admits options.maxDepth (entry.depth + 1) ∧ walk.visit store options entry queue = walk.mark entry queue) ∨
      ∃ found, Admits options.maxDepth (entry.depth + 1) ∧ BfsWalk.Expansion store options entry
        (store.adjacentEdges entry.node.id options.direction options.edgeKinds) (walk.mark entry queue)
        (walk.visit store options entry queue) found := by
  have shape : walk.visit store options entry queue =
      if depthReached entry.depth options.maxDepth then walk.mark entry queue
      else (walk.mark entry queue).expand store options entry := rfl
  rw [shape]
  by_cases deep : depthReached entry.depth options.maxDepth = true
  · rw [if_pos deep]
    exact .inl ⟨depthReached_iff.mp deep, rfl⟩
  · rw [if_neg deep]
    obtain ⟨found, expansion⟩ := BfsWalk.expansion store options entry (walk.mark entry queue)
    exact .inr ⟨found, by simpa [depthReached_iff] using deep, expansion⟩

/-- Visiting an entry keeps the walk sound and uses up work. -/
theorem BfsWalk.Sound.visit (sound : walk.Sound store options startId tree) (popped : walk.queue = entry :: queue)
    (fresh : entry.node.id ∉ walk.visited) :
    (walk.visit store options entry queue).Sound store options startId (tree ++ entry.crossing) ∧
      (walk.visit store options entry queue).work store options < walk.work store options := by
  have marked := sound.mark popped fresh
  have stored := GraphStore.nodeById_mem (sound.queued entry (popped ▸ mem_cons_self)).1
  have release := sum_unvisited store.nodes
    (fun node => (store.adjacentEdges node.id options.direction options.edgeKinds).length) stored fresh
  have length : walk.queue.length = queue.length + 1 := by rw [popped, length_cons]
  rcases walk.visit_cases entry queue with ⟨-, same⟩ | ⟨found, -, expansion⟩
  · rw [same]
    refine ⟨marked, ?_⟩
    unfold BfsWalk.work BfsWalk.mark
    dsimp only
    omega
  · refine ⟨marked.expand mem_cons_self (sound.started_of_queued popped) expansion, ?_⟩
    have short := expansion.short
    unfold BfsWalk.work
    rw [expansion.visited, expansion.queue, length_append]
    unfold BfsWalk.mark
    dsimp only
    omega

/-- A visited entry is dropped. -/
theorem BfsWalk.Sound.skip (sound : walk.Sound store options startId tree) (popped : walk.queue = entry :: queue)
    (seen : entry.node.id ∈ walk.visited) : BfsWalk.Sound store options startId tree { walk with queue := queue } := by
  refine ⟨sound.keyed, sound.bounded, sound.edges, sound.crosses, sound.once, sound.marked, sound.spanned,
    sound.started,
    fun other member => sound.queued other (popped ▸ mem_cons_of_mem _ member), ?_, sound.known, sound.begun⟩
  intro id holds
  rcases sound.held id holds with start | before | ⟨other, member, rfl⟩
  · exact .inl start
  · exact .inr (.inl before)
  · rw [popped] at member
    rcases mem_cons.mp member with rfl | later
    · exact .inr (.inl seen)
    · exact .inr (.inr ⟨other, later, rfl⟩)

theorem BfsWalk.Leveled.skip (leveled : walk.Leveled store options startId tree) (popped : walk.queue = entry :: queue)
    (seen : entry.node.id ∈ walk.visited) :
    BfsWalk.Leveled store options startId tree { walk with queue := queue } := by
  have frontier := leveled.frontier
  rw [popped, map_cons] at frontier
  exact ⟨frontier.skip seen, leveled.distances,
    fun other member => leveled.entered other (popped ▸ mem_cons_of_mem _ member), leveled.reached⟩

/-- Visiting an entry of a graph that stays below its limit keeps the levels. -/
theorem BfsWalk.Leveled.visit (leveled : walk.Leveled store options startId tree) (popped : walk.queue = entry :: queue)
    (fresh : entry.node.id ∉ walk.visited) (room : (walk.visit store options entry queue).graph.len < options.limit) :
    (walk.visit store options entry queue).Leveled store options startId (tree ++ entry.crossing) := by
  have frontier := leveled.frontier
  rw [popped, map_cons] at frontier
  have here := frontier.head_at fresh
  have admits := (frontier.routed _ mem_cons_self).2
  have distances : ∀ crossing ∈ tree ++ entry.crossing, ∃ depth, At (options.Step store) {startId} depth crossing.near ∧
      At (options.Step store) {startId} (depth + 1) crossing.far := by
    intro crossing member
    rcases mem_append.mp member with old | new
    · exact leveled.distances crossing old
    · unfold BfsEntry.crossing at new
      cases named : entry.edge with
      | none =>
        rw [named] at new
        cases new
      | some edge =>
        rw [named] at new
        rw [mem_singleton.mp new]
        obtain ⟨depth, deeper, near⟩ := leveled.entered entry (popped ▸ mem_cons_self) edge named
        exact ⟨depth, near, deeper ▸ here⟩
  have reached : ∀ id ∈ entry.node.id :: walk.visited, Within (options.Step store) {startId} options.maxDepth id := by
    intro id member
    rcases mem_cons.mp member with rfl | old
    · exact ⟨entry.depth, here.1, admits⟩
    · exact leveled.reached id old
  have marks (id : String) : id ∈ entry.node.id :: walk.visited ↔ id ∈ walk.visited ∨ id = entry.node.id := by
    rw [mem_cons, or_comm]
  rcases walk.visit_cases entry queue with ⟨deep, same⟩ | ⟨found, deeper, expansion⟩
  · rw [same]
    refine ⟨?_, distances, fun other member => leveled.entered other (popped ▸ mem_cons_of_mem _ member), reached⟩
    have expanded := frontier.expand fresh marks (fun _ none => absurd none not_mem_nil)
      (fun allowed => absurd allowed deep)
    rwa [append_nil] at expanded
  · refine ⟨?_, distances, ?_, by rw [expansion.visited]; exact reached⟩
    · rw [expansion.visited, expansion.queue, map_append]
      refine frontier.expand fresh marks ?_ ?_
      · intro pair member
        obtain ⟨other, new, rfl⟩ := mem_map.mp member
        obtain ⟨depth, stored, kind, -, edge, listed, -, through⟩ := expansion.arrives other new
        exact ⟨depth, ⟨edge, other.node, TraversalOptions.crosses_iff.mpr ⟨listed, through⟩, stored, kind⟩, deeper⟩
      · rintro - next ⟨edge, node, crosses, stored, kind⟩
        obtain ⟨listed, through⟩ := TraversalOptions.crosses_iff.mp crosses
        by_cases seen : next ∈ entry.node.id :: walk.visited
        · exact .inl seen
        · obtain ⟨other, new, same⟩ := expansion.complete room edge listed (through ▸ seen) node (through ▸ stored) kind
          refine .inr ⟨_, le_rfl, mem_append_right _ (mem_map.mpr ⟨other, new, ?_⟩)⟩
          rw [same, through, (expansion.arrives other new).1]
    · intro other member edge named
      rw [expansion.queue] at member
      rcases mem_append.mp member with old | new
      · exact leveled.entered other (popped ▸ mem_cons_of_mem _ old) edge named
      · obtain ⟨depth, -, -, -, through, listed, chosen, leads⟩ := expansion.arrives other new
        rw [named, Option.some.injEq] at chosen
        subst chosen
        have crosses : options.Crosses store entry.node.id edge other.node.id :=
          TraversalOptions.crosses_iff.mpr ⟨listed, leads⟩
        exact ⟨entry.depth, depth, crosses.neighbors.2 ▸ here⟩

/-- A run with a round for each piece of work ends in a sound walk, and it empties the queue when the limit exceeds the
number of nodes. -/
theorem BfsWalk.Sound.run (sound : walk.Sound store options startId tree)
    (leveled : store.nodes.length < options.limit → walk.Leveled store options startId tree) (fuel : Nat)
    (enough : walk.work store options < fuel) :
    ∃ after final, walk.run store options fuel = some after ∧ after.Sound store options startId final ∧
      (store.nodes.length < options.limit → after.Leveled store options startId final ∧ after.queue = []) := by
  induction fuel generalizing walk tree with
  | zero => exact absurd enough (Nat.not_lt_zero _)
  | succ fuel ih =>
    rw [BfsWalk.run]
    rcases popped : walk.queue with _ | ⟨entry, queue⟩
    · exact ⟨walk, tree, rfl, sound, fun large => ⟨leveled large, popped⟩⟩
    dsimp only
    by_cases full : walk.graph.len ≥ options.limit
    · rw [if_pos full]
      have bound := sound.keyed.len_le sound.known
      exact ⟨walk, tree, rfl, sound, fun large => absurd full (by omega)⟩
    rw [if_neg full]
    by_cases seen : entry.node.id ∈ walk.visited
    · rw [if_pos seen]
      refine ih (sound.skip popped seen) (fun large => (leveled large).skip popped seen) ?_
      unfold BfsWalk.work at enough ⊢
      rw [popped, length_cons] at enough
      dsimp only
      omega
    · rw [if_neg seen]
      obtain ⟨next, less⟩ := sound.visit popped seen
      refine ih next (fun large => (leveled large).visit popped seen ?_) (by omega)
      exact (next.keyed.len_le next.known).trans_lt large

/-- The search starts sound. -/
theorem BfsWalk.Sound.start {startNode : Node} (found : store.nodeById startId = some startNode) :
    BfsWalk.Sound store options startId [] ⟨options.startGraph startNode, [], [⟨startNode, none, 0⟩]⟩ := by
  have same : startNode.id = startId := GraphStore.nodeById_id found
  refine ⟨options.startGraph_keyed startNode, (options.startGraph_len startNode).trans (le_max_right _ _), by simp,
    by simp, nodup_nil, by simp, by simp, by simp, ?_, ?_, ?_, ?_⟩
  · intro entry member
    rw [mem_singleton.mp member]
    exact ⟨same ▸ found, same⟩
  · intro id holds
    exact .inl (((options.startGraph_holds startNode id).mp holds).2.trans same)
  · intro id holds
    rw [((options.startGraph_holds startNode id).mp holds).2, same]
    exact ⟨startNode, found⟩
  · rw [options.startGraph_holds startNode startId, and_iff_left same.symm]

theorem BfsWalk.Leveled.start {startNode : Node} (found : store.nodeById startId = some startNode) :
    BfsWalk.Leveled store options startId [] ⟨options.startGraph startNode, [], [⟨startNode, none, 0⟩]⟩ := by
  have same : startNode.id = startId := GraphStore.nodeById_id found
  refine ⟨?_, by simp, ?_, by simp⟩
  · rw [map_singleton, same]
    simpa using .start startId
  · intro entry member edge named
    rw [mem_singleton.mp member] at named
    cases named

/-- The traversal of a stored node ends in a sound walk. -/
theorem traverseBfs_walk (options : TraversalOptions) {startNode : Node}
    (found : store.nodeById startId = some startNode) (spare : Nat) :
    ∃ (walk : BfsWalk) (tree : List Crossing), traverseBfs store (bfsRounds store options + spare) startId options =
        some { walk.graph with roots := [startId] } ∧ walk.Sound store options startId tree ∧
      (store.nodes.length < options.limit → walk.Leveled store options startId tree ∧ walk.queue = []) := by
  have start : BfsWalk.Sound store options startId [] ⟨options.startGraph startNode, [], [⟨startNode, none, 0⟩]⟩ :=
    .start found
  obtain ⟨walk, tree, ran, sound, leveled⟩ := start.run (fun _ => .start found) (bfsRounds store options + spare)
    (by simp [BfsWalk.work, bfsRounds]; omega)
  refine ⟨walk, tree, ?_, sound, leveled⟩
  rw [traverseBfs, found]
  dsimp only
  rw [ran]
  rfl

/-- A finished walk within a large limit has visited exactly what is within the depth limit. -/
theorem BfsWalk.Leveled.visited_iff (leveled : walk.Leveled store options startId tree) (ended : walk.queue = [])
    (id : String) : id ∈ walk.visited ↔ Within (options.Step store) {startId} options.maxDepth id := by
  have frontier := leveled.frontier
  rw [ended, map_nil] at frontier
  exact ⟨leveled.reached id, frontier.exhausted⟩

/-- A finished walk holds what it visited, besides the start. -/
theorem BfsWalk.Sound.holds_iff (sound : walk.Sound store options startId tree) (ended : walk.queue = [])
    (started : startId ∈ walk.visited) (id : String) : walk.graph.Holds id ∨ id = startId ↔ id ∈ walk.visited := by
  constructor
  · rintro (held | rfl)
    · rcases sound.held id held with rfl | seen | ⟨entry, member, -⟩
      · exact started
      · exact seen
      · rw [ended] at member
        cases member
    · exact started
  · intro seen
    rcases sound.spanned id seen with start | among
    · exact .inr start
    · obtain ⟨crossing, member, rfl⟩ := mem_map.mp among
      exact .inl (sound.crosses crossing member).2.2

/-- A tree edge leads from its near end to the node that it was returned for. -/
def treeStep (tree : List Crossing) (near far : String) : Prop :=
  ∃ crossing ∈ tree, crossing.near = near ∧ crossing.far = far

/-- The tree reaches each visited node by as many edges as its distance counts. -/
theorem BfsWalk.Leveled.tree_iff (leveled : walk.Leveled store options startId tree)
    (sound : walk.Sound store options startId tree) (ended : walk.queue = []) (depth : Nat) (id : String) :
    Walk (treeStep tree) {startId} depth id ↔
      At (options.Step store) {startId} depth id ∧ Within (options.Step store) {startId} options.maxDepth id := by
  constructor
  · intro walked
    induction walked with
    | here begun => exact ⟨at_zero_iff.mpr begun, 0, .here begun, fun _ _ => Nat.zero_le _⟩
    | @step depth place next _ taken ih =>
      obtain ⟨crossing, member, rfl, rfl⟩ := taken
      obtain ⟨found, near, far⟩ := leveled.distances crossing member
      obtain rfl := near.unique ih.1
      exact ⟨far, leveled.reached _ (sound.marked _ (mem_map_of_mem member)).1⟩
  · intro ⟨at_, within⟩
    induction depth generalizing id with
    | zero => exact .here (at_zero_iff.mp at_)
    | succ depth ih =>
      rcases sound.spanned id ((leveled.visited_iff ended id).mpr within) with rfl | among
      · exact absurd (at_.unique (at_zero_iff.mpr rfl)) (Nat.succ_ne_zero depth)
      · obtain ⟨crossing, member, rfl⟩ := mem_map.mp among
        obtain ⟨found, near, far⟩ := leveled.distances crossing member
        have same : depth = found := Nat.succ.inj (at_.unique far)
        subst same
        exact (ih crossing.near near (leveled.reached _ (sound.crosses crossing member).2.1)).step
          ⟨crossing, member, rfl, rfl⟩

end Search

/-- A breadth-first traversal keeps its limit and returns at most one allowed edge for each node it holds. Within a
large limit it holds what is near enough, and its edges are a tree whose depths are the distances. -/
theorem bfs_returns_shortest_tree (store : GraphStore) (startId : String) (options : TraversalOptions) (spare : Nat) :
    ∃ (graph : Subgraph) (tree : List Crossing),
      traverseBfs store (bfsRounds store options + spare) startId options = some graph ∧ graph.Keyed ∧
      graph.len ≤ max options.limit 1 ∧ graph.edges = tree.map Crossing.edge ∧ (tree.map Crossing.far).Nodup ∧
      (∀ crossing ∈ tree, options.Crosses store crossing.near crossing.edge crossing.far ∧
        graph.Holds crossing.far) ∧
      (store.nodes.length < options.limit ∧ store.Exists startId →
        (∀ id, graph.Holds id ∨ id = startId ↔ Within (options.Step store) {startId} options.maxDepth id) ∧
        (∀ id, id ∈ tree.map Crossing.far ↔ id ≠ startId ∧
          Within (options.Step store) {startId} options.maxDepth id) ∧
        ∀ depth id, Walk (treeStep tree) {startId} depth id ↔
          At (options.Step store) {startId} depth id ∧
            Within (options.Step store) {startId} options.maxDepth id) := by
  rcases found : store.nodeById startId with _ | startNode
  · refine ⟨.empty, [], by rw [traverseBfs, found], .empty, Nat.zero_le _, rfl, nodup_nil, by simp, ?_⟩
    rintro ⟨-, node, present⟩
    rw [found] at present
    cases present
  · obtain ⟨walk, tree, ran, sound, leveled⟩ := traverseBfs_walk options found spare
    refine ⟨_, tree, ran, ⟨sound.keyed.distinct, sound.keyed.listed⟩, sound.bounded, sound.edges, sound.once,
      fun crossing member => ⟨(sound.crosses crossing member).1, (sound.crosses crossing member).2.2⟩, ?_⟩
    rintro ⟨large, -⟩
    obtain ⟨levels, ended⟩ := leveled large
    have started : startId ∈ walk.visited :=
      (levels.visited_iff ended startId).mpr ⟨0, .here rfl, fun _ _ => Nat.zero_le _⟩
    refine ⟨fun id => (sound.holds_iff ended started id).trans (levels.visited_iff ended id), ?_,
      levels.tree_iff sound ended⟩
    intro id
    rw [← levels.visited_iff ended id]
    constructor
    · intro among
      exact (sound.marked id among).symm
    · intro ⟨other, seen⟩
      exact (sound.spanned id seen).resolve_left other

end Codegraph.Graph
