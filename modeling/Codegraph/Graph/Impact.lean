import Codegraph.Graph.Callers

/- This file proves which nodes and edges the impact radius holds. -/

namespace Codegraph.Graph
open List

variable {other : GraphStore}

open Codegraph.Core DepthWalk

section Impact

variable (store : GraphStore) {debt : List Edge} {descend : String → ImpactWalk → Option ImpactWalk}

/-- A child is contained in a node of a container kind. -/
def childOf (place next : String) : Prop :=
  (∃ node, store.nodeById place = some node ∧ node.kind ∈ containerKinds) ∧
    ∃ edge ∈ store.edges, edge.kind = .contains ∧ edge.source = place ∧ edge.target = next ∧ store.Exists next

/-- A dependent is the source of an incoming edge other than containment. -/
def dependentOf (place next : String) : Prop :=
  ∃ edge ∈ store.edges, edge.kind ≠ .contains ∧ edge.target = place ∧ edge.source = next ∧ store.Exists next

/-- A step to a child is free, and a step to a dependent costs one. -/
def impactStep (place : String) (cost : Nat) (next : String) : Prop :=
  (cost = 0 ∧ childOf store place next) ∨ (cost = 1 ∧ dependentOf store place next)

/-- A node owes its children and its dependents to the subgraph. -/
def impactOwed (place next : String) : Prop := childOf store place next ∨ dependentOf store place next

def ImpactWalk.Holds (walk : ImpactWalk) (id : String) : Prop := walk.graph.Holds id

/-- The recorded dependencies are the edges other than containment. -/
def Subgraph.recorded (graph : Subgraph) : List Edge := graph.edges.filter fun edge => edge.kind ≠ .contains

/-- An edge with a missing source is never recorded. -/
def recordable (edges : List Edge) : List Edge := edges.filter fun edge => (store.nodeById edge.source).isSome

variable {store} {maxDepth : Nat} {start nodeId : String} {walk : ImpactWalk} {edge : Edge}

theorem mem_childEdges : edge ∈ childEdges store nodeId ↔
    (∃ node, store.nodeById nodeId = some node ∧ node.kind ∈ containerKinds) ∧
      edge ∈ store.edges ∧ edge.source = nodeId ∧ edge.kind = .contains := by
  unfold childEdges
  rcases found : store.nodeById nodeId with _ | focal
  · simp
  · by_cases container : focal.kind ∈ containerKinds
    · simp [container, GraphStore.mem_outgoingEdgesKinds]
    · simp [container]

theorem dependentEdges_perm : (dependentEdges store nodeId).Perm
    (store.edges.filter fun edge => edge.target = nodeId ∧ edge.kind ≠ .contains) := by
  have listed := (store.listedAll (.byTarget nodeId none)).filter fun edge => decide (edge.kind ≠ .contains)
  rw [filter_filter] at listed
  refine listed.trans (.of_eq (filter_congr fun edge _ => ?_))
  simp [EdgeQuery.selects, Bool.and_comm]

theorem mem_dependentEdges : edge ∈ dependentEdges store nodeId ↔
    edge ∈ store.edges ∧ edge.target = nodeId ∧ edge.kind ≠ .contains := by
  rw [dependentEdges_perm.mem_iff, mem_filter]
  simp

/-- A sound walk records routes, holds what it visited, and expanded each visited node once. -/
structure ImpactWalk.Sound (store : GraphStore) (maxDepth : Nat) (start : String) (walk : ImpactWalk) : Prop where
  routed : Routed (impactStep store) maxDepth start walk.visited
  held : ∀ id, walk.visited id ≠ none → walk.Holds id
  justified : ∀ id, walk.Holds id → id = start ∨ ∃ depth place, Route (impactStep store) start depth place ∧
    depth < maxDepth ∧ impactOwed store place id
  unique : walk.expanded.Nodup
  expanded : ∀ id, id ∈ walk.expanded ↔ walk.visited id ≠ none

/-- The recorded edges and the debt of the open nodes make up the edges at the expanded nodes. -/
structure ImpactWalk.Settled (store : GraphStore) (maxDepth : Nat) (start : String) (fuel : Nat) (debt : List Edge)
    (walk : ImpactWalk) : Prop where
  room : slack maxDepth (store.nodes.map Node.id) walk.visited < fuel
  sound : walk.Sound store maxDepth start
  balance : (walk.graph.recorded ++ debt).Perm
    (walk.expanded.flatMap fun id => recordable store (dependentEdges store id))

abbrev ImpactProgress (store : GraphStore) (maxDepth : Nat) : ImpactWalk → ImpactWalk → Prop :=
  Progress (impactStep store) maxDepth ImpactWalk.visited ImpactWalk.Holds (impactOwed store)

/-- What a call of the walk promises to its caller. -/
def Descends (store : GraphStore) (maxDepth : Nat) (start : String) (fuel depth : Nat)
    (descend : String → ImpactWalk → Option ImpactWalk) : Prop :=
  ∀ id walk debt, store.Exists id → walk.Holds id → Route (impactStep store) start depth id →
    walk.Settled store maxDepth start fuel debt → ∃ after, descend id walk = some after ∧
      after.Settled store maxDepth start fuel debt ∧ ImpactProgress store maxDepth walk after ∧
      (depth < maxDepth → Covers after.visited id depth)

/-- A walk whose subgraph gains one justified node stays sound. -/
theorem ImpactWalk.Sound.gain {graph : Subgraph} {gained : String} (sound : walk.Sound store maxDepth start)
    (joins : ∀ id, graph.Holds id ↔ walk.Holds id ∨ id = gained)
    (justified : ∃ depth place, Route (impactStep store) start depth place ∧ depth < maxDepth ∧
      impactOwed store place gained) : ImpactWalk.Sound store maxDepth start { walk with graph := graph } := by
  refine ⟨sound.routed, fun id seen => (joins id).mpr (.inl (sound.held id seen)), ?_, sound.unique, sound.expanded⟩
  intro id held
  rcases (joins id).mp held with old | rfl
  · exact sound.justified id old
  · exact .inr justified

theorem ImpactProgress.gain {graph : Subgraph} {gained : String}
    (joins : ∀ id, graph.Holds id ↔ walk.Holds id ∨ id = gained) :
    ImpactProgress store maxDepth walk { walk with graph := graph } :=
  .of_eq rfl fun id held => (joins id).mpr (.inl held)

/-- Adding a node that is already there changes nothing. -/
theorem Subgraph.ensure_holds (graph : Subgraph) (node : Node) (id : String) :
    (if (graph.nodes node.id).isSome then graph else graph.setNode node).Holds id ↔ graph.Holds id ∨ id = node.id := by
  by_cases known : (graph.nodes node.id).isSome = true
  · rw [if_pos known]
    constructor
    · exact .inl
    · rintro (held | rfl)
      · exact held
      · exact known
  · rw [if_neg known]
    exact graph.setNode_holds node id

theorem Subgraph.setNode_recorded (graph : Subgraph) (node : Node) :
    (graph.setNode node).recorded = graph.recorded := rfl

theorem Subgraph.pushEdge_recorded (graph : Subgraph) (edge : Edge) :
    (graph.pushEdge edge).recorded = graph.recorded ++ [edge].filter fun edge => edge.kind ≠ .contains := by
  simp only [Subgraph.recorded, Subgraph.pushEdge, filter_append]

/-- A visited child is covered at the depth of its parent. -/
theorem visitChild_walks {fuel depth : Nat} (descends : Descends store maxDepth start fuel depth descend)
    (route : Route (impactStep store) start depth nodeId) (within : depth < maxDepth)
    (settled : walk.Settled store maxDepth start fuel debt) (listed : edge ∈ childEdges store nodeId) :
    ∃ after, visitChild (store.nodesByIds ((childEdges store nodeId).map Edge.target)) depth descend walk edge =
        some after ∧ after.Settled store maxDepth start fuel debt ∧ ImpactProgress store maxDepth walk after ∧
      (store.Exists edge.target → Covers after.visited edge.target depth ∧ after.Holds edge.target) := by
  obtain ⟨container, stored, source, kind⟩ := mem_childEdges.mp listed
  simp only [visitChild, GraphStore.nodesByIds_map listed]
  rcases found : store.nodeById edge.target with _ | child
  · refine ⟨walk, rfl, settled, .refl _, ?_⟩
    intro ⟨node, present⟩
    rw [found] at present
    cases present
  · have same : child.id = edge.target := GraphStore.nodeById_id found
    have present : store.Exists edge.target := ⟨child, found⟩
    have owed : childOf store nodeId edge.target := ⟨container, edge, stored, kind, source, rfl, present⟩
    dsimp only
    by_cases nearer : nearerThanBefore walk.visited child.id depth = true
    · rw [if_pos nearer]
      obtain ⟨graph, chosen⟩ : ∃ graph, graph = if (walk.graph.nodes child.id).isSome then walk.graph
        else (walk.graph.setNode child).pushEdge edge := ⟨_, rfl⟩
      have joins (id : String) : graph.Holds id ↔ walk.Holds id ∨ id = edge.target := by
        rw [← same]
        have ensured := walk.graph.ensure_holds child id
        rw [chosen]
        split <;> simp_all [ImpactWalk.Holds]
      have unrecorded : graph.recorded = walk.graph.recorded := by
        rw [chosen]
        split
        · rfl
        · rw [Subgraph.pushEdge_recorded, Subgraph.setNode_recorded]
          simp [kind]
      rw [← chosen]
      have sound := settled.sound.gain joins ⟨depth, nodeId, route, within, .inl owed⟩
      obtain ⟨after, ran, final, progress, covers⟩ := descends child.id { walk with graph := graph } debt
        (same ▸ present) ((joins _).mpr (.inr same)) (same ▸ route.step (.inl ⟨rfl, owed⟩))
        ⟨settled.room, sound, by rw [unrecorded]; exact settled.balance⟩
      have gains := (ImpactProgress.gain joins).trans progress
      refine ⟨after, ran, final, gains, fun _ => ⟨?_, ?_⟩⟩
      · rw [← same]
        exact covers within
      · exact progress.keeps _ ((joins _).mpr (.inr rfl))
    · rw [if_neg nearer]
      have covers : Covers walk.visited edge.target depth := by
        rw [← same]
        exact covers_of_not_nearer fun near => nearer (nearerThanBefore_iff.mpr near)
      refine ⟨walk, rfl, settled, .refl _, fun _ => ⟨covers, settled.sound.held _ ?_⟩⟩
      obtain ⟨recorded, -, seen⟩ := covers
      rw [seen]
      exact Option.some_ne_none _

/-- On its first expansion a node owes the edges that its loop has not reached yet. -/
def owing (store : GraphStore) (firstExpansion : Bool) (remaining debt : List Edge) : List Edge :=
  if firstExpansion then recordable store remaining ++ debt else debt

/-- A visited dependent is covered one level deeper, and its edge is recorded on the first expansion. -/
theorem visitDependent_walks {fuel depth : Nat} {rest : List Edge} {firstExpansion : Bool}
    (descends : Descends store maxDepth start fuel (depth + 1) descend)
    (route : Route (impactStep store) start depth nodeId) (within : depth < maxDepth)
    (settled : walk.Settled store maxDepth start fuel (owing store firstExpansion (edge :: rest) debt))
    (listed : edge ∈ dependentEdges store nodeId) :
    ∃ after, visitDependent (store.nodesByIds ((dependentEdges store nodeId).map Edge.source)) firstExpansion
        (depth + 1) descend walk edge = some after ∧
      after.Settled store maxDepth start fuel (owing store firstExpansion rest debt) ∧
      ImpactProgress store maxDepth walk after ∧
      (store.Exists edge.source → (depth + 1 < maxDepth → Covers after.visited edge.source (depth + 1)) ∧
        after.Holds edge.source) := by
  obtain ⟨stored, target, kind⟩ := mem_dependentEdges.mp listed
  simp only [visitDependent, GraphStore.nodesByIds_map listed]
  rcases found : store.nodeById edge.source with _ | source
  · have skipped : owing store firstExpansion (edge :: rest) debt = owing store firstExpansion rest debt := by
      simp [owing, recordable, found]
    rw [skipped] at settled
    refine ⟨walk, rfl, settled, .refl _, ?_⟩
    intro ⟨node, present⟩
    rw [found] at present
    cases present
  · have same : source.id = edge.source := GraphStore.nodeById_id found
    have present : store.Exists edge.source := ⟨source, found⟩
    have owed : dependentOf store nodeId edge.source := ⟨edge, stored, kind, target, rfl, present⟩
    obtain ⟨graph, chosen⟩ : ∃ graph, graph =
        if firstExpansion = true then
          (if (walk.graph.nodes source.id).isSome then walk.graph else walk.graph.setNode source).pushEdge edge
        else if (walk.graph.nodes source.id).isSome then walk.graph else walk.graph.setNode source := ⟨_, rfl⟩
    have joins (id : String) : graph.Holds id ↔ walk.Holds id ∨ id = edge.source := by
      rw [← same, chosen]
      split
      · rw [Subgraph.pushEdge_holds]
        exact walk.graph.ensure_holds source id
      · exact walk.graph.ensure_holds source id
    have unchanged : (if (walk.graph.nodes source.id).isSome then walk.graph
        else walk.graph.setNode source).recorded = walk.graph.recorded := by
      split <;> rfl
    have balance : (graph.recorded ++ owing store firstExpansion rest debt).Perm
        (walk.expanded.flatMap fun id => recordable store (dependentEdges store id)) := by
      refine .trans ?_ settled.balance
      rw [chosen]
      rcases firstExpansion with _ | _
      · simp only [Bool.false_eq_true, if_false, unchanged, owing]
        exact .refl _
      · simp only [if_true, Subgraph.pushEdge_recorded, unchanged, owing]
        simp [recordable, kind, found]
    have sound := settled.sound.gain joins ⟨depth, nodeId, route, within, .inr owed⟩
    have gained : ImpactWalk.Settled store maxDepth start fuel (owing store firstExpansion rest debt)
        { walk with graph := graph } := ⟨settled.room, sound, balance⟩
    dsimp only
    rw [← chosen]
    by_cases nearer : nearerThanBefore walk.visited source.id (depth + 1) = true
    · rw [if_pos nearer]
      obtain ⟨after, ran, final, progress, covers⟩ := descends source.id { walk with graph := graph } _
        (same ▸ present) ((joins _).mpr (.inr same)) (same ▸ route.step (.inr ⟨rfl, owed⟩)) gained
      refine ⟨after, ran, final, (ImpactProgress.gain joins).trans progress, fun _ => ⟨?_, ?_⟩⟩
      · rw [← same]
        exact covers
      · exact progress.keeps _ ((joins _).mpr (.inr rfl))
    · rw [if_neg nearer]
      refine ⟨{ walk with graph := graph }, rfl, gained, .gain joins, fun _ => ⟨fun _ => ?_, ?_⟩⟩
      · rw [← same]
        exact covers_of_not_nearer fun near => nearer (nearerThanBefore_iff.mpr near)
      · exact (joins _).mpr (.inr rfl)

/-- Entering a node keeps the walk sound and opens the debt of its first expansion. -/
theorem ImpactWalk.Settled.enter {fuel depth : Nat} {visited : Depths}
    (settled : walk.Settled store maxDepth start (fuel + 1) debt) (present : store.Exists nodeId)
    (held : walk.Holds nodeId) (route : Route (impactStep store) start depth nodeId) (within : depth < maxDepth)
    (nearer : Nearer walk.visited nodeId depth) (entered : visited = Function.update walk.visited nodeId (some depth)) :
    ImpactWalk.Settled store maxDepth start fuel
      (owing store (decide (nodeId ∉ walk.expanded)) (dependentEdges store nodeId) debt)
      { walk with
        visited := visited
        expanded := if decide (nodeId ∉ walk.expanded) = true then nodeId :: walk.expanded else walk.expanded } := by
  obtain ⟨room, sound, balance⟩ := settled
  have used := slack_enter (GraphStore.exists_iff.mp present) nearer within
  have seen (id : String) : visited id ≠ none ↔ id = nodeId ∨ walk.visited id ≠ none := by
    by_cases same : id = nodeId
    · simp [entered, same]
    · simp [entered, same]
  refine ⟨?_, ⟨?_, ?_, sound.justified, ?_, ?_⟩, ?_⟩
  · rw [entered]
    exact lt_of_lt_of_le used (Nat.le_of_lt_succ room)
  · rw [entered]
    exact sound.routed.enter route within
  · intro id recorded
    rcases (seen id).mp recorded with rfl | before
    · exact held
    · exact sound.held id before
  · by_cases known : nodeId ∈ walk.expanded
    · simpa [known] using sound.unique
    · simpa [known] using sound.unique
  · intro id
    rw [seen, ← sound.expanded]
    by_cases known : nodeId ∈ walk.expanded
    · simp only [known, not_true_eq_false, decide_false, Bool.false_eq_true, if_false]
      constructor
      · exact .inr
      · rintro (rfl | before)
        · exact known
        · exact before
    · simp [known]
  · by_cases known : nodeId ∈ walk.expanded
    · simpa [known, owing] using balance
    · simp only [known, not_false_eq_true, decide_true, if_true, owing, flatMap_cons]
      refine List.Perm.trans ?_ (balance.append_left _)
      rw [← append_assoc, ← append_assoc]
      exact perm_append_comm.append_right _

/-- With enough fuel a call keeps the walk settled and covers its node. -/
theorem impactRecursive_walks (fuel depth : Nat) :
    Descends store maxDepth start fuel depth fun id walk => impactRecursive store maxDepth fuel id depth walk := by
  induction fuel generalizing depth with
  | zero =>
    intro id walk debt _ _ _ settled
    exact absurd settled.room (by omega)
  | succ fuel ih =>
    intro nodeId walk debt present held route settled
    dsimp only
    rw [impactRecursive]
    by_cases deep : depth ≥ maxDepth
    · rw [if_pos deep]
      exact ⟨walk, rfl, settled, .refl _, fun within => absurd within (by omega)⟩
    rw [if_neg deep]
    have within : depth < maxDepth := Nat.lt_of_not_le deep
    rcases opened : enterAtDepth walk.visited nodeId depth with _ | visited
    · exact ⟨walk, rfl, settled, .refl _, fun _ => enterAtDepth_none opened⟩
    obtain ⟨nearer, entered⟩ := enterAtDepth_some opened
    have start := settled.enter present held route within nearer entered
    obtain ⟨pulled, children, whole, first, childrenSettled⟩ := Progress.foldlM _
      (fun _ => ImpactWalk.Settled store maxDepth _ fuel _)
      (fun (walk : ImpactWalk) (edge : Edge) => store.Exists edge.target →
        Covers walk.visited edge.target depth ∧ walk.Holds edge.target)
      (childEdges store nodeId)
      (fun before after edge progress settled found =>
        ⟨progress.covers (settled found).1, progress.keeps _ (settled found).2⟩)
      (fun walk edge _ listed settled => visitChild_walks (ih depth) route within settled listed) _ start
    obtain ⟨after, dependents, final, second, dependentsSettled⟩ := Progress.foldlM _
      (fun remaining => ImpactWalk.Settled store maxDepth _ fuel
        (owing store (decide (nodeId ∉ walk.expanded)) remaining debt))
      (fun (walk : ImpactWalk) (edge : Edge) => store.Exists edge.source →
        (depth + 1 < maxDepth → Covers walk.visited edge.source (depth + 1)) ∧ walk.Holds edge.source)
      (dependentEdges store nodeId)
      (fun before after edge progress settled found =>
        ⟨fun below => progress.covers ((settled found).1 below), progress.keeps _ (settled found).2⟩)
      (fun walk edge rest listed settled => visitDependent_walks (ih (depth + 1)) route within settled listed)
      pulled whole
    have progress : ImpactProgress store maxDepth walk after := by
      refine (first.trans second).enter nearer entered (fun _ held => held) ?_ ?_
      · rintro cost next (⟨rfl, container, edge, stored, kind, source, rfl, found⟩ |
          ⟨rfl, edge, stored, kind, target, rfl, found⟩) below
        · exact second.covers (childrenSettled edge (mem_childEdges.mpr ⟨container, stored, source, kind⟩) found).1
        · exact (dependentsSettled edge (mem_dependentEdges.mpr ⟨stored, target, kind⟩) found).1 below
      · rintro next (⟨container, edge, stored, kind, source, rfl, found⟩ | ⟨edge, stored, kind, target, rfl, found⟩)
        · exact second.keeps _
            (childrenSettled edge (mem_childEdges.mpr ⟨container, stored, source, kind⟩) found).2
        · exact (dependentsSettled edge (mem_dependentEdges.mpr ⟨stored, target, kind⟩) found).2
    refine ⟨after, ?_, ⟨?_, final.sound, ?_⟩, progress, fun _ => ?_⟩
    · simp only [bind, Option.bind] at children ⊢
      rw [children]
      exact dependents
    · exact Nat.lt_succ_of_lt final.room
    · simpa [owing, recordable] using final.balance
    · apply (first.trans second).covers
      refine ⟨depth, le_rfl, ?_⟩
      rw [entered]
      exact Function.update_self _ _ _

/-- Collecting the edges of distinct nodes collects each edge once. -/
theorem flatMap_filter_perm {ids : List String} (unique : ids.Nodup) (edges : List Edge) (key : Edge → String)
    (kept : Edge → Bool) : (ids.flatMap fun id => edges.filter fun edge => key edge = id && kept edge).Perm
      (edges.filter fun edge => key edge ∈ ids && kept edge) := by
  rw [perm_iff_count]
  intro edge
  induction ids with
  | nil => simp
  | cons id rest ih =>
    rw [flatMap_cons, count_append, ih (nodup_cons.mp unique).2]
    have fresh := (nodup_cons.mp unique).1
    have counts (test : Edge → Bool) : (edges.filter test).count edge = if test edge then edges.count edge
      else 0 := by
      by_cases passes : test edge = true
      · rw [if_pos passes, count_filter passes]
      · rw [if_neg passes, count_eq_zero]
        intro member
        exact passes (mem_filter.mp member).2
    simp only [counts, mem_cons]
    by_cases here : key edge = id
    · have elsewhere : key edge ∉ rest := here ▸ fresh
      simp [here, fresh]
    · simp [here]

/-- The edges that an expanded node records. -/
theorem recordable_perm (nodeId : String) : (recordable store (dependentEdges store nodeId)).Perm
    (store.edges.filter fun edge => edge.target = nodeId &&
      (edge.kind ≠ .contains && (store.nodeById edge.source).isSome)) := by
  refine (dependentEdges_perm.filter _).trans (.of_eq ?_)
  rw [filter_filter]
  apply filter_congr
  intro edge _
  by_cases target : edge.target = nodeId <;> by_cases kind : edge.kind = .contains <;> simp [target, kind]

end Impact

open Classical in
/-- The dependencies within the limit are the incoming edges, other than containment, of the nodes nearer than it. -/
noncomputable def dependenciesWithin (store : GraphStore) (nodeId : String) (maxDepth : Nat) : List Edge :=
  store.edges.filter fun edge => edge.kind ≠ .contains ∧ store.Exists edge.source ∧
    distance (impactStep store) nodeId edge.target < maxDepth

/-- A node of the radius is the focal one, or a child or a dependent of a node nearer than the limit. -/
def WithinImpact (store : GraphStore) (nodeId : String) (maxDepth : Nat) (id : String) : Prop :=
  id = nodeId ∨ ∃ place, distance (impactStep store) nodeId place < maxDepth ∧
    (childOf store place id ∨ dependentOf store place id)

/-- The radius holds the nodes within the distance and records their dependencies, each once. -/
theorem getImpactRadius_exact (store : GraphStore) (nodeId : String) (present : store.Exists nodeId)
    (maxDepth spare : Nat) :
    ∃ graph, getImpactRadius store (store.nodes.length * maxDepth + 1 + spare) nodeId maxDepth = some graph ∧
      (∀ id, graph.Holds id ↔ WithinImpact store nodeId maxDepth id) ∧
      graph.recorded.Perm (dependenciesWithin store nodeId maxDepth) := by
  obtain ⟨focal, found⟩ := present
  have same : focal.id = nodeId := GraphStore.nodeById_id found
  have only (id : String) : (Subgraph.empty.setNode focal).Holds id ↔ id = nodeId := by
    rw [Subgraph.setNode_holds, same]
    constructor
    · rintro (impossible | here)
      · cases impossible
      · exact here
    · exact .inr
  have settled : ImpactWalk.Settled store maxDepth nodeId (store.nodes.length * maxDepth + 1 + spare) []
      ⟨Subgraph.empty.setNode focal, fun _ => none, []⟩ := by
    refine ⟨?_, ⟨?_, fun _ seen => absurd rfl seen, fun id held => .inl ((only id).mp held), nodup_nil,
      fun id => by simp⟩, .refl _⟩
    · have bound := slack_le maxDepth (store.nodes.map Node.id) fun _ => none
      rw [length_map] at bound
      dsimp only
      omega
    · intro place depth recorded
      cases recorded
  obtain ⟨walk, ran, final, progress, begun⟩ := impactRecursive_walks _ 0 nodeId
    ⟨Subgraph.empty.setNode focal, fun _ => none, []⟩ [] ⟨focal, found⟩ ((only nodeId).mpr rfl) Route.here settled
  dsimp only at ran
  have recorded (place : String) : walk.visited place ≠ none ↔
      distance (impactStep store) nodeId place < maxDepth :=
    progress.recorded_iff (fun _ => rfl) begun final.sound.routed
  refine ⟨{ walk.graph with roots := [nodeId] }, ?_, ?_, ?_⟩
  · simp only [getImpactRadius, found, Option.bind_eq_bind]
    rw [ran]
    rfl
  · intro id
    constructor
    · intro held
      rcases final.sound.justified id held with here | ⟨depth, place, route, within, owed⟩
      · exact .inl here
      · exact .inr ⟨place, distance_lt_iff.mpr ⟨depth, within, route⟩, owed⟩
    · rintro (rfl | ⟨place, near, owed⟩)
      · exact progress.keeps _ ((only _).mpr rfl)
      · exact progress.finishes place ((recorded place).mpr near) id owed
  · have balance := final.balance
    rw [append_nil] at balance
    have spread : (walk.expanded.flatMap fun id => recordable store (dependentEdges store id)).Perm
        (walk.expanded.flatMap fun id => store.edges.filter fun edge => edge.target = id &&
          (edge.kind ≠ .contains && (store.nodeById edge.source).isSome)) :=
      .flatMap_left _ fun id _ => recordable_perm id
    refine (balance.trans spread).trans
      ((flatMap_filter_perm final.sound.unique store.edges Edge.target _).trans (List.Perm.of_eq ?_))
    apply filter_congr
    intro edge _
    have near : edge.target ∈ walk.expanded ↔ distance (impactStep store) nodeId edge.target < maxDepth := by
      rw [final.sound.expanded, recorded]
    have exists_ : (store.nodeById edge.source).isSome = true ↔ store.Exists edge.source := Option.isSome_iff_exists
    rw [Bool.eq_iff_iff]
    simp only [near, Bool.and_eq_true, decide_eq_true_eq, exists_]
    tauto

theorem GraphStore.SameTables.nodeById_eq {store : GraphStore} (same : store.SameTables other) (id : String) :
    other.nodeById id = store.nodeById id := by
  rcases left : other.nodeById id with _ | first
  · rcases right : store.nodeById id with _ | second
    · rfl
    · obtain ⟨node, found⟩ := same.exists_iff.mpr ⟨second, right⟩
      rw [left] at found
      cases found
  · rcases right : store.nodeById id with _ | second
    · obtain ⟨node, found⟩ := same.exists_iff.mp ⟨first, left⟩
      rw [right] at found
      cases found
    · -- Node ids are unique, so both stores find the same row.
      have stored : first ∈ store.nodes := same.nodes.mem_iff.mp (nodeById_mem left)
      have key : first.id = second.id := (nodeById_id left).trans (nodeById_id right).symm
      rw [inj_on_of_nodup_map store.nodeKey stored (nodeById_mem right) key]

theorem childOf_sameTables {store : GraphStore} (same : store.SameTables other) : childOf other = childOf store := by
  funext place next
  simp only [childOf, same.nodeById_eq, same.mem_edges, same.exists_iff]

theorem dependentOf_sameTables {store : GraphStore} (same : store.SameTables other) :
    dependentOf other = dependentOf store := by
  funext place next
  simp only [dependentOf, same.mem_edges, same.exists_iff]

theorem impactStep_sameTables {store : GraphStore} (same : store.SameTables other) :
    impactStep other = impactStep store := by
  funext place cost next
  simp only [impactStep, childOf_sameTables same, dependentOf_sameTables same]

/-- The radius holds exactly the nodes and records exactly the dependencies within the limit, in any listing order. -/
theorem impact_within_distance (store : GraphStore) (nodeId : String) (present : store.Exists nodeId)
    (maxDepth spare : Nat) :
    ∃ graph, getImpactRadius store (store.nodes.length * maxDepth + 1 + spare) nodeId maxDepth = some graph ∧
      (∀ id, graph.Holds id ↔ WithinImpact store nodeId maxDepth id) ∧
      graph.recorded.Perm (dependenciesWithin store nodeId maxDepth) ∧
      ∀ other, store.SameTables other →
        ∃ again, getImpactRadius other (store.nodes.length * maxDepth + 1 + spare) nodeId maxDepth = some again ∧
          (∀ id, again.Holds id ↔ graph.Holds id) ∧ again.recorded.Perm graph.recorded := by
  obtain ⟨graph, ran, holds, recorded⟩ := getImpactRadius_exact store nodeId present maxDepth spare
  refine ⟨graph, ran, holds, recorded, fun other same => ?_⟩
  obtain ⟨again, reran, held, rerecorded⟩ :=
    getImpactRadius_exact other nodeId (same.exists_iff.mpr present) maxDepth spare
  rw [same.nodes.length_eq] at reran
  refine ⟨again, reran, fun id => ?_, ?_⟩
  · rw [held, holds]
    simp only [WithinImpact, impactStep_sameTables same, childOf_sameTables same, dependentOf_sameTables same]
  · refine (rerecorded.trans ?_).trans recorded.symm
    refine (same.edges.filter _).trans (.of_eq (filter_congr fun edge _ => ?_))
    rw [decide_eq_decide, same.exists_iff, impactStep_sameTables same]

/-- A method of a class is called by a function. -/
def calledMethodStore : GraphStore :=
  .inTableOrder [bareNode "Shape" .class_, bareNode "area" .method, bareNode "draw" .function]
    [bareEdge "Shape" "area" .contains, bareEdge "draw" "area" .calls] (by decide)

/-- A class with a member. -/
theorem class_impact_within_distance : calledMethodStore.Exists "Shape" ∧
    ∃ graph, getImpactRadius calledMethodStore (calledMethodStore.nodes.length * 1 + 1 + 0) "Shape" 1 = some graph ∧
      (∀ id, graph.Holds id ↔ WithinImpact calledMethodStore "Shape" 1 id) ∧
      graph.recorded.Perm (dependenciesWithin calledMethodStore "Shape" 1) ∧
      ∀ other, calledMethodStore.SameTables other →
        ∃ again, getImpactRadius other (calledMethodStore.nodes.length * 1 + 1 + 0) "Shape" 1 = some again ∧
          (∀ id, again.Holds id ↔ graph.Holds id) ∧ again.recorded.Perm graph.recorded := by
  have present : calledMethodStore.Exists "Shape" := ⟨bareNode "Shape" .class_, rfl⟩
  exact ⟨present, impact_within_distance calledMethodStore "Shape" present 1 0⟩

end Codegraph.Graph
