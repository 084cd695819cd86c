import Codegraph.Graph.Traverser
import Mathlib.Data.List.Perm.Subperm

/- This file proves that the path search finds a shortest path and enqueues every node at most once. -/

namespace Codegraph.Graph
open Codegraph.Core List

section Search

variable (store : GraphStore) (edgeKinds : List EdgeKind) (fromId : String)
  {nodeId : String} {nextNodes : String → Option Node}

/-- A step crosses an allowed outgoing edge to a node that exists. -/
def pathStep (place next : String) : Prop :=
  ∃ edge ∈ store.edges, edge.source = place ∧ allowedKind edgeKinds edge.kind ∧ edge.target = next ∧
    store.Exists next

/-- A path starts at its source with no edge, and each further step crosses an allowed edge from the step before. -/
inductive PathTo : List PathStep → String → Prop
  | start (node : Node) (found : store.nodeById fromId = some node) : PathTo [⟨node, none⟩] fromId
  | step {path : List PathStep} {place : String} {edge : Edge} {node : Node} (before : PathTo path place)
      (stored : edge ∈ store.edges) (source : edge.source = place) (allowed : allowedKind edgeKinds edge.kind)
      (found : store.nodeById edge.target = some node) : PathTo (path ++ [⟨node, some edge⟩]) edge.target

def PathStep.id (step : PathStep) : String := step.node.id

variable {store edgeKinds fromId} {toId : String} {search : PathSearch} {path : List PathStep} {place next : String}

theorem PathTo.nonempty (route : PathTo store edgeKinds fromId path place) : 0 < path.length := by
  cases route with
  | start => simp
  | step => simp

/-- A path exists exactly when the source exists and reaches the place. -/
theorem pathTo_iff : (∃ path, PathTo store edgeKinds fromId path place) ↔
    store.Exists fromId ∧ Relation.ReflTransGen (pathStep store edgeKinds) fromId place := by
  constructor
  · intro ⟨path, route⟩
    induction route with
    | start node found => exact ⟨⟨node, found⟩, .refl⟩
    | @step path place edge node _ stored source allowed found ih =>
      exact ⟨ih.1, ih.2.tail ⟨edge, stored, source, allowed, rfl, node, found⟩⟩
  · intro ⟨⟨first, begun⟩, reached⟩
    induction reached with
    | refl => exact ⟨_, .start first begun⟩
    | tail _ taken ih =>
      obtain ⟨path, route⟩ := ih
      obtain ⟨edge, stored, source, allowed, rfl, node, found⟩ := taken
      exact ⟨_, route.step stored source allowed found⟩

/-- A path that leaves a set crosses its border after a shorter path inside. -/
theorem PathTo.crosses {inside : String → Prop} (route : PathTo store edgeKinds fromId path place)
    (begun : inside fromId) (outside : ¬ inside place) :
    ∃ shorter near far, PathTo store edgeKinds fromId shorter near ∧ inside near ∧
      pathStep store edgeKinds near far ∧ ¬ inside far ∧ shorter.length + 1 ≤ path.length := by
  induction route with
  | start => exact absurd begun outside
  | @step path place edge node before stored source allowed found ih =>
    by_cases within : inside place
    · exact ⟨path, place, edge.target, before, within, ⟨edge, stored, source, allowed, rfl, node, found⟩, outside,
        by simp⟩
    · obtain ⟨shorter, near, far, route, held, taken, left, below⟩ := ih within
      exact ⟨shorter, near, far, route, held, taken, left, Nat.le_trans below (by simp)⟩

/-- A sound search accounts for every node it enqueued, and its queue holds shortest simple paths by length. -/
structure PathSearch.Sound (store : GraphStore) (edgeKinds : List EdgeKind) (fromId toId : String)
    (search : PathSearch) : Prop where
  account : search.enqueued.Perm (search.visited ++ search.queue.map Prod.fst)
  unique : search.enqueued.Nodup
  counted : search.stats.enqueued = search.enqueued.length
  undoubled : search.stats.duplicateDequeues = 0
  rooted : fromId ∈ search.enqueued
  present : ∀ id ∈ search.enqueued, store.Exists id
  routed : ∀ entry ∈ search.queue, PathTo store edgeKinds fromId entry.2 entry.1
  simple : ∀ entry ∈ search.queue, (entry.2.map PathStep.id).Nodup
  within : ∀ entry ∈ search.queue, ∀ id ∈ entry.2.map PathStep.id, id ∈ search.enqueued
  shortest : ∀ entry ∈ search.queue, ∀ other, PathTo store edgeKinds fromId other entry.1 →
    entry.2.length ≤ other.length
  missed : toId ∉ search.visited
  sorted : search.queue.Pairwise fun first second => first.2.length ≤ second.2.length

/-- Between two rounds every visited node has enqueued its neighbours, and the queue spans two levels. -/
structure PathSearch.Level (store : GraphStore) (edgeKinds : List EdgeKind) (fromId toId : String)
    (search : PathSearch) : Prop where
  sound : search.Sound store edgeKinds fromId toId
  closed : ∀ place ∈ search.visited, ∀ next, pathStep store edgeKinds place next → next ∈ search.enqueued
  spans : ∀ first rest, search.queue = first :: rest → ∀ entry ∈ rest, entry.2.length ≤ first.2.length + 1

/-- The search starts on the level of its first node. -/
theorem PathSearch.start_level {fromNode : Node} (found : store.nodeById fromId = some fromNode) :
    (PathSearch.start fromId fromNode).Level store edgeKinds fromId toId := by
  have only {entry : String × List PathStep} (member : entry ∈ (PathSearch.start fromId fromNode).queue) :
      entry = (fromId, [⟨fromNode, none⟩]) := mem_singleton.mp member
  refine ⟨⟨?_, nodup_singleton _, rfl, rfl, mem_singleton_self _, ?_, ?_, ?_, ?_, ?_, not_mem_nil,
    pairwise_singleton _ _⟩, ?_, ?_⟩
  · exact .refl _
  · intro id member
    rw [mem_singleton.mp member]
    exact ⟨fromNode, found⟩
  · intro entry member
    rw [only member]
    exact .start fromNode found
  · intro entry member
    rw [only member]
    exact nodup_singleton _
  · intro entry member id named
    rw [only member] at named
    rw [mem_singleton.mp named]
    exact mem_singleton.mpr (GraphStore.nodeById_id found)
  · intro entry member other route
    rw [only member]
    exact route.nonempty
  · intro place member
    exact absurd member not_mem_nil
  · intro first rest split entry member
    simp only [PathSearch.start, cons.injEq] at split
    rw [← split.2] at member
    exact absurd member not_mem_nil

/-- While one node is expanded, only that node may miss neighbours, and every missing node lies beyond it. -/
structure PathSearch.Expanding (store : GraphStore) (edgeKinds : List EdgeKind) (fromId toId nodeId : String)
    (path : List PathStep) (search : PathSearch) : Prop where
  sound : search.Sound store edgeKinds fromId toId
  route : PathTo store edgeKinds fromId path nodeId
  simple : (path.map PathStep.id).Nodup
  within : ∀ id ∈ path.map PathStep.id, id ∈ search.enqueued
  others : ∀ place ∈ search.visited, place ≠ nodeId → ∀ next, pathStep store edgeKinds place next →
    next ∈ search.enqueued
  spans : ∀ entry ∈ search.queue, path.length ≤ entry.2.length ∧ entry.2.length ≤ path.length + 1
  beyond : ∀ next, next ∉ search.enqueued → ∀ other, PathTo store edgeKinds fromId other next →
    path.length + 1 ≤ other.length

section

variable (expanding : search.Expanding store edgeKinds fromId toId nodeId path)
include expanding

/-- A new node is enqueued behind a path that is one edge longer. -/
theorem PathSearch.Expanding.enqueue {edge : Edge} {node : Node}
    (stored : edge ∈ store.edges) (source : edge.source = nodeId) (allowed : allowedKind edgeKinds edge.kind)
    (found : store.nodeById edge.target = some node) (fresh : edge.target ∉ search.enqueued) :
    (search.enqueue path node edge).Expanding store edgeKinds fromId toId nodeId path := by
  obtain ⟨sound, route, simple, within, others, spans, beyond⟩ := expanding
  have named : node.id = edge.target := GraphStore.nodeById_id found
  have joins {entry : String × List PathStep} (member : entry ∈ (search.enqueue path node edge).queue) :
      entry ∈ search.queue ∨ entry = (edge.target, path ++ [⟨node, some edge⟩]) := by
    simpa [PathSearch.enqueue] using member
  have ids : (path ++ [(⟨node, some edge⟩ : PathStep)]).map PathStep.id = path.map PathStep.id ++ [edge.target] := by
    simp [PathStep.id, named]
  refine ⟨⟨?_, nodup_cons.mpr ⟨fresh, sound.unique⟩, ?_, sound.undoubled, mem_cons_of_mem _ sound.rooted,
    ?_, ?_, ?_, ?_, ?_, sound.missed, ?_⟩, route, simple, fun id member => mem_cons_of_mem _ (within id member),
    ?_, ?_, ?_⟩
  · simp only [PathSearch.enqueue, map_append, map_cons, map_nil]
    rw [← append_assoc]
    exact (sound.account.cons _).trans (perm_append_singleton _ _).symm
  · simp [PathSearch.enqueue, sound.counted]
  · intro id member
    rcases mem_cons.mp member with rfl | old
    · exact ⟨node, found⟩
    · exact sound.present id old
  · intro entry member
    rcases joins member with old | rfl
    · exact sound.routed entry old
    · exact route.step stored source allowed found
  · intro entry member
    rcases joins member with old | rfl
    · exact sound.simple entry old
    · rw [ids]
      refine nodup_append.mpr ⟨simple, nodup_singleton _, ?_⟩
      intro id inside other last same
      rw [mem_singleton.mp last] at same
      exact fresh (same ▸ within id inside)
  · intro entry member id inside
    rcases joins member with old | rfl
    · exact mem_cons_of_mem _ (sound.within entry old id inside)
    · rw [ids, mem_append, mem_singleton] at inside
      rcases inside with old | rfl
      · exact mem_cons_of_mem _ (within id old)
      · exact mem_cons_self
  · intro entry member other arrives
    rcases joins member with old | rfl
    · exact sound.shortest entry old other arrives
    · rw [length_append]
      exact beyond edge.target fresh other arrives
  · refine pairwise_append.mpr ⟨sound.sorted, pairwise_singleton _ _, ?_⟩
    intro entry member last new
    rw [mem_singleton.mp new, length_append]
    exact (spans entry member).2
  · intro place member different next taken
    exact mem_cons_of_mem _ (others place member different next taken)
  · intro entry member
    rcases joins member with old | rfl
    · exact spans entry old
    · simp
  · intro next missing other arrives
    exact beyond next (fun known => missing (mem_cons_of_mem _ known)) other arrives

/-- A visited edge settles its target: an existing target is enqueued from then on. -/
theorem PathSearch.Expanding.visit {edge : Edge} (listed : edge ∈ store.outgoingEdges nodeId edgeKinds)
    (wanted : edge.target ∉ search.visited ∧ edge.target ∉ search.enqueued →
      nextNodes edge.target = store.nodeById edge.target) :
    (search.visit nextNodes path edge).Expanding store edgeKinds fromId toId nodeId path ∧
      (search.visit nextNodes path edge).visited = search.visited ∧
      (∀ id ∈ search.enqueued, id ∈ (search.visit nextNodes path edge).enqueued) ∧
      (store.Exists edge.target → edge.target ∈ (search.visit nextNodes path edge).enqueued) := by
  obtain ⟨stored, source, allowed⟩ := GraphStore.mem_outgoingEdges.mp listed
  unfold PathSearch.visit
  by_cases unseen : edge.target ∉ search.visited ∧ edge.target ∉ search.enqueued
  · rw [if_pos unseen, wanted unseen]
    rcases found : store.nodeById edge.target with _ | node
    · refine ⟨expanding, rfl, fun _ member => member, ?_⟩
      intro ⟨row, known⟩
      rw [found] at known
      cases known
    · exact ⟨expanding.enqueue stored source allowed found unseen.2, rfl,
        fun id member => mem_cons_of_mem _ member, fun _ => mem_cons_self⟩
  · rw [if_neg unseen]
    refine ⟨expanding, rfl, fun _ member => member, fun _ => ?_⟩
    -- A node that was visited before is enqueued as well.
    by_contra absent
    refine unseen ⟨fun seen => absent ?_, absent⟩
    exact expanding.sound.account.mem_iff.mpr (mem_append_left _ seen)

/-- Visiting the edges of a node goes on with its expansion. -/
theorem PathSearch.Expanding.visits {edges : List Edge}
    (listed : ∀ edge ∈ edges, edge ∈ store.outgoingEdges nodeId edgeKinds)
    (wanted : ∀ edge ∈ edges, edge.target ∉ search.visited ∧ edge.target ∉ search.enqueued →
      nextNodes edge.target = store.nodeById edge.target) :
    (edges.foldl (PathSearch.visit nextNodes path) search).Expanding store edgeKinds fromId toId nodeId path ∧
      (edges.foldl (PathSearch.visit nextNodes path) search).visited = search.visited ∧
      (∀ id ∈ search.enqueued, id ∈ (edges.foldl (PathSearch.visit nextNodes path) search).enqueued) ∧
      ∀ edge ∈ edges, store.Exists edge.target →
        edge.target ∈ (edges.foldl (PathSearch.visit nextNodes path) search).enqueued := by
  induction edges generalizing search with
  | nil => exact ⟨expanding, rfl, fun _ member => member, fun _ member => absurd member not_mem_nil⟩
  | cons edge rest ih =>
    obtain ⟨next, seen, grown, settled⟩ :=
      expanding.visit (listed edge mem_cons_self) (wanted edge mem_cons_self)
    obtain ⟨final, kept, more, others⟩ := ih next
      (fun other member => listed other (mem_cons_of_mem _ member))
      (fun other member fresh => wanted other (mem_cons_of_mem _ member)
        ⟨seen ▸ fresh.1, fun known => fresh.2 (grown _ known)⟩)
    refine ⟨final, kept.trans seen, fun id member => more id (grown id member), ?_⟩
    intro other member present
    rcases mem_cons.mp member with rfl | later
    · exact more _ (settled present)
    · exact others other later present

/-- Expanding a node enqueues all its neighbours. -/
theorem PathSearch.Expanding.expand
    : (search.expand store edgeKinds nodeId path).Expanding store edgeKinds fromId toId nodeId path ∧
      (search.expand store edgeKinds nodeId path).visited = search.visited ∧
      ∀ next, pathStep store edgeKinds nodeId next → next ∈ (search.expand store edgeKinds nodeId path).enqueued := by
  have wanted (edge : Edge) (listed : edge ∈ store.outgoingEdges nodeId edgeKinds)
      (fresh : edge.target ∉ search.visited ∧ edge.target ∉ search.enqueued) :
      store.nodesByIds (((store.outgoingEdges nodeId edgeKinds).map Edge.target).filter fun id =>
        id ∉ search.visited ∧ id ∉ search.enqueued) edge.target = store.nodeById edge.target := by
    rw [GraphStore.nodesByIds, if_pos]
    exact mem_filter.mpr ⟨mem_map_of_mem listed, by simpa using fresh⟩
  obtain ⟨final, kept, -, settled⟩ := expanding.visits (fun _ member => member) wanted
  refine ⟨final, kept, ?_⟩
  rintro next ⟨edge, stored, source, allowed, rfl, present⟩
  exact settled edge (GraphStore.mem_outgoingEdges.mpr ⟨stored, source, allowed⟩) present

end

/-- A shortest simple path ends the search, or no path exists. -/
def PathSearch.Answers (store : GraphStore) (edgeKinds : List EdgeKind) (fromId toId : String)
    (answer : Option (List PathStep)) : Prop :=
  match answer with
  | none => ∀ path, ¬ PathTo store edgeKinds fromId path toId
  | some path => PathTo store edgeKinds fromId path toId ∧
      (∀ other, PathTo store edgeKinds fromId other toId → path.length ≤ other.length) ∧
      (path.map PathStep.id).Nodup

/-- Each node was pushed at most once, and no popped node had been visited before. -/
structure PathSearch.Frugal (search : PathSearch) : Prop where
  once : search.enqueued.Nodup
  counted : search.stats.enqueued = search.enqueued.length
  undoubled : search.stats.duplicateDequeues = 0

theorem PathSearch.Sound.frugal (sound : search.Sound store edgeKinds fromId toId) : search.Frugal :=
  ⟨sound.unique, sound.counted, sound.undoubled⟩

section

variable (level : search.Level store edgeKinds fromId toId)
include level

/-- An empty queue means that the visited nodes are closed and miss the goal. -/
theorem PathSearch.Level.exhausted (empty : search.queue = []) :
    PathSearch.Answers store edgeKinds fromId toId none := by
  intro path route
  have all (id : String) : id ∈ search.enqueued ↔ id ∈ search.visited := by
    rw [level.sound.account.mem_iff, empty, map_nil, append_nil]
  have outside : ¬ toId ∈ search.enqueued := fun known => level.sound.missed ((all toId).mp known)
  obtain ⟨shorter, near, far, -, held, taken, left, -⟩ := route.crosses level.sound.rooted outside
  exact left (level.closed near ((all near).mp held) far taken)

/-- The popped node is fresh, and every missing node lies beyond it. -/
theorem PathSearch.Level.pop {queue : List (String × List PathStep)} (popped : search.queue = (nodeId, path) :: queue)
    (other : nodeId ≠ toId) : nodeId ∉ search.visited ∧
      PathSearch.Expanding store edgeKinds fromId toId nodeId path
        { search with
          queue := queue
          stats := { search.stats with dequeued := search.stats.dequeued + 1 }
          visited := nodeId :: search.visited } := by
  obtain ⟨sound, closed, spans⟩ := level
  have head : (nodeId, path) ∈ search.queue := by rw [popped]; exact mem_cons_self
  have tail {entry : String × List PathStep} (member : entry ∈ queue) : entry ∈ search.queue := by
    rw [popped]
    exact mem_cons_of_mem _ member
  have account := sound.account
  rw [popped, map_cons] at account
  have unique := account.nodup_iff.mp sound.unique
  have sorted := sound.sorted
  rw [popped, pairwise_cons] at sorted
  refine ⟨?_, ⟨?_, sound.unique, sound.counted, sound.undoubled, sound.rooted, sound.present,
    fun entry member => sound.routed entry (tail member), fun entry member => sound.simple entry (tail member),
    fun entry member => sound.within entry (tail member), fun entry member => sound.shortest entry (tail member),
    ?_, sorted.2⟩, sound.routed _ head, sound.simple _ head, sound.within _ head, ?_, ?_, ?_⟩
  · intro visited
    exact (nodup_append.mp unique).2.2 nodeId visited nodeId mem_cons_self rfl
  · exact account.trans perm_middle
  · intro reached
    rcases mem_cons.mp reached with rfl | before
    · exact other rfl
    · exact sound.missed before
  · intro place member different next taken
    rcases mem_cons.mp member with rfl | before
    · exact absurd rfl different
    · exact closed place before next taken
  · intro entry member
    exact ⟨sorted.1 entry member, spans _ _ popped entry member⟩
  · intro next missing longer arrives
    -- The path leaves the enqueued nodes from the queue, whose shortest entry is the popped one.
    obtain ⟨shorter, near, far, route, held, taken, left, below⟩ := arrives.crosses sound.rooted missing
    rcases mem_append.mp (account.mem_iff.mp held) with visited | queued
    · exact absurd (closed near visited far taken) left
    · rcases mem_cons.mp queued with rfl | later
      · have least := sound.shortest _ head shorter route
        dsimp only at least
        omega
      · obtain ⟨entry, member, rfl⟩ := mem_map.mp later
        have least := sound.shortest entry (tail member) shorter route
        have after := sorted.1 entry member
        dsimp only at after
        omega

/-- One round answers, or it visits one more node and keeps the level. -/
theorem PathSearch.Level.round : match search.round store toId edgeKinds with
    | .done answer final => PathSearch.Answers store edgeKinds fromId toId answer ∧ final.Frugal
    | .next after => after.Level store edgeKinds fromId toId ∧ after.visited.length = search.visited.length + 1 := by
  unfold PathSearch.round
  rcases popped : search.queue with _ | ⟨⟨nodeId, path⟩, queue⟩
  · exact ⟨level.exhausted popped, level.sound.frugal⟩
  · dsimp only
    by_cases goal : nodeId = toId
    · rw [if_pos goal]
      have head : (nodeId, path) ∈ search.queue := by rw [popped]; exact mem_cons_self
      subst goal
      exact ⟨⟨level.sound.routed _ head, level.sound.shortest _ head, level.sound.simple _ head⟩,
        level.sound.unique, level.sound.counted, level.sound.undoubled⟩
    · obtain ⟨fresh, expanding⟩ := level.pop popped goal
      rw [if_neg goal, if_neg fresh]
      obtain ⟨final, kept, neighbours⟩ := expanding.expand
      refine ⟨⟨final.sound, ?_, ?_⟩, by rw [kept]; rfl⟩
      · intro place member next taken
        by_cases here : place = nodeId
        · exact neighbours next (here ▸ taken)
        · exact final.others place member here next taken
      · intro first rest split entry member
        have lower := (final.spans first (by rw [split]; exact mem_cons_self)).1
        have upper := (final.spans entry (by rw [split]; exact mem_cons_of_mem _ member)).2
        omega

theorem PathSearch.Level.visited_le : search.visited.length ≤ store.nodes.length := by
  have unique := (nodup_append.mp (level.sound.account.nodup_iff.mp level.sound.unique)).1
  have known : search.visited ⊆ store.nodes.map Node.id := by
    intro id member
    apply GraphStore.exists_iff.mp
    exact level.sound.present id (level.sound.account.mem_iff.mpr (mem_append_left _ member))
  have bound := (subperm_of_subset unique known).length_le
  rwa [length_map] at bound

/-- Every run with a round for each node answers. -/
theorem PathSearch.Level.run (fuel : Nat) (enough : store.nodes.length < search.visited.length + fuel) :
    ∃ answer final, search.run store toId edgeKinds fuel = some (answer, final) ∧
      PathSearch.Answers store edgeKinds fromId toId answer ∧ final.Frugal := by
  induction fuel generalizing search with
  | zero => exact absurd level.visited_le (by omega)
  | succ fuel ih =>
    have step := level.round
    rw [PathSearch.run]
    rcases ended : search.round store toId edgeKinds with ⟨answer, final⟩ | ⟨after⟩
    · rw [ended] at step
      exact ⟨answer, final, rfl, step⟩
    · rw [ended] at step
      exact ih step.1 (by omega)

end

end Search

/-- The states that a search passes through. -/
inductive PathSearch.Passes (store : GraphStore) (toId : String) (edgeKinds : List EdgeKind) (first : PathSearch) :
    PathSearch → Prop
  | start : Passes store toId edgeKinds first first
  | round {search after : PathSearch} (before : Passes store toId edgeKinds first search)
      (went : search.round store toId edgeKinds = .next after) : Passes store toId edgeKinds first after

theorem PathSearch.Passes.level {store : GraphStore} {toId fromId : String} {edgeKinds : List EdgeKind}
    {first search : PathSearch} (passes : PathSearch.Passes store toId edgeKinds first search)
    (level : first.Level store edgeKinds fromId toId) : search.Level store edgeKinds fromId toId := by
  induction passes with
  | start => exact level
  | round _ went ih =>
    have step := ih.round
    rw [went] at step
    exact step.1

/-- The search ends with a shortest simple path exactly when the goal is reachable, and at no moment was a node
enqueued twice or a popped node visited before. -/
theorem shortest_path_found (store : GraphStore) (fromId toId : String) (edgeKinds : List EdgeKind) (spare : Nat) :
    ∃ answer stats,
      findPathInstrumented store (store.nodes.length + 1 + spare) fromId toId edgeKinds = some (answer, stats) ∧
      (answer.isSome = true ↔ store.Exists fromId ∧ store.Exists toId ∧
        Relation.ReflTransGen (pathStep store edgeKinds) fromId toId) ∧
      (∀ path, answer = some path → PathTo store edgeKinds fromId path toId ∧
        (∀ other, PathTo store edgeKinds fromId other toId → path.length ≤ other.length) ∧
        (path.map PathStep.id).Nodup) ∧
      stats.duplicateDequeues = 0 ∧
      ∀ fromNode, store.nodeById fromId = some fromNode → ∀ search,
        PathSearch.Passes store toId edgeKinds (PathSearch.start fromId fromNode) search → search.Frugal := by
  have passes (fromNode : Node) (found : store.nodeById fromId = some fromNode) (search : PathSearch)
      (passed : PathSearch.Passes store toId edgeKinds (PathSearch.start fromId fromNode) search) : search.Frugal :=
    (passed.level (PathSearch.start_level found)).sound.frugal
  rcases found : store.nodeById fromId with _ | fromNode
  · refine ⟨none, ⟨0, 0, 0⟩, by simp [findPathInstrumented, found], ?_, ?_, rfl, ?_⟩
    · simp [GraphStore.Exists, found]
    · intro path impossible
      cases impossible
    · intro node impossible
      cases impossible
  rcases goal : store.nodeById toId with _ | toNode
  · refine ⟨none, ⟨0, 0, 0⟩, by simp [findPathInstrumented, found, goal], ?_, ?_, rfl, ?_⟩
    · simp [GraphStore.Exists, goal]
    · intro path impossible
      cases impossible
    · intro node same
      exact passes node (found.trans same)
  · have level : (PathSearch.start fromId fromNode).Level store edgeKinds fromId toId := PathSearch.start_level found
    obtain ⟨answer, final, ran, answers, frugal⟩ := level.run (store.nodes.length + 1 + spare)
      (by simp only [PathSearch.start, length_nil]; omega)
    refine ⟨answer, final.stats, ?_, ?_, ?_, frugal.undoubled, ?_⟩
    · simp [findPathInstrumented, found, goal, ran]
    · have both : store.Exists fromId ∧ store.Exists toId := ⟨⟨fromNode, found⟩, toNode, goal⟩
      rcases answer with _ | path
      · simp only [Option.isSome_none, Bool.false_eq_true, false_iff]
        intro ⟨from_, _, reached⟩
        obtain ⟨path, route⟩ := pathTo_iff.mpr ⟨from_, reached⟩
        exact answers path route
      · simp only [Option.isSome_some, true_iff]
        exact ⟨both.1, both.2, (pathTo_iff.mp ⟨path, answers.1⟩).2⟩
    · rintro path rfl
      exact answers
    · intro node same
      exact passes node (found.trans same)

end Codegraph.Graph
