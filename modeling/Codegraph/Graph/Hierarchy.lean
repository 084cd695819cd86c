import Codegraph.Graph.Traverser
import Codegraph.Library.DepthWalk

/- This file proves which nodes a type hierarchy holds. -/

namespace Codegraph.Graph
open Codegraph.Core DepthWalk

/-- A visited node is as near as it can be. -/
def TypeWalk.depths (walk : TypeWalk) (id : String) : Option Nat := if id ∈ walk.visited then some 0 else none

def TypeWalk.Holds (walk : TypeWalk) (id : String) : Prop := walk.graph.Holds id

theorem TypeWalk.covers_iff {walk : TypeWalk} {id : String} : Covers walk.depths id 0 ↔ id ∈ walk.visited := by
  by_cases seen : id ∈ walk.visited <;> simp [Covers, TypeWalk.depths, seen]

section Relatives

variable (store : GraphStore) (list : String → List Edge) (far : Edge → String)

/-- A relative is the existing far end of a listed edge. -/
def relative (place next : String) : Prop := ∃ edge ∈ list place, far edge = next ∧ store.Exists next

/-- A step to a relative costs nothing, so a limit of one admits every route. -/
def relativeStep (place : String) (cost : Nat) (next : String) : Prop := cost = 0 ∧ relative store list far place next

/-- Between two calls every node of the subgraph is visited and within the reach of the walk. -/
structure TypeWalk.Settled (reach : String → Prop) (ids : List String) (fuel : Nat) (walk : TypeWalk) : Prop where
  room : slack 1 ids walk.depths < fuel
  visited : ∀ id, walk.Holds id → id ∈ walk.visited
  sound : ∀ id, walk.Holds id → reach id

variable {store list far} {reach : String → Prop}

/-- A visited relative is covered and held, when descending from a settled walk settles. -/
theorem visitRelative_walks {nodeId : String} {fuel : Nat} {descend : String → TypeWalk → Option TypeWalk}
    (closed : ∀ place next, reach place → relative store list far place next → reach next)
    (descends : ∀ relativeId walk, store.Exists relativeId → slack 1 (store.nodes.map Node.id) walk.depths < fuel →
      (∀ id, walk.Holds id → id ∈ walk.visited ∨ id = relativeId) → (∀ id, walk.Holds id → reach id) →
      reach relativeId → ∃ after, descend relativeId walk = some after ∧
        Progress (relativeStep store list far) 1 TypeWalk.depths TypeWalk.Holds (relative store list far) walk after ∧
        relativeId ∈ after.visited ∧ (∀ id, after.Holds id → id ∈ after.visited) ∧ ∀ id, after.Holds id → reach id)
    (reached : reach nodeId) (walk : TypeWalk)
    (settled : walk.Settled reach (store.nodes.map Node.id) fuel) (edge : Edge) (listed : edge ∈ list nodeId) :
    ∃ after, visitRelative (store.nodesByIds ((list nodeId).map far)) far descend walk edge = some after ∧
      after.Settled reach (store.nodes.map Node.id) fuel ∧
      Progress (relativeStep store list far) 1 TypeWalk.depths TypeWalk.Holds (relative store list far) walk after ∧
      (store.Exists (far edge) → Covers after.depths (far edge) 0 ∧ after.Holds (far edge)) := by
  simp only [visitRelative, GraphStore.nodesByIds_map listed]
  rcases found : store.nodeById (far edge) with _ | row
  · refine ⟨walk, rfl, settled, .refl _, ?_⟩
    intro ⟨node, present⟩
    rw [found] at present
    cases present
  · have same : row.id = far edge := GraphStore.nodeById_id found
    have present : store.Exists (far edge) := ⟨row, found⟩
    dsimp only
    by_cases held : walk.Holds row.id
    · rw [if_pos (by exact held), same] at *
      exact ⟨walk, rfl, settled, .refl _, fun _ =>
        ⟨TypeWalk.covers_iff.mpr (settled.visited _ held), held⟩⟩
    · rw [if_neg (by exact held), same]
      have joins (id : String) :
          (TypeWalk.mk ((walk.graph.setNode row).pushEdge edge) walk.visited).Holds id ↔
            walk.Holds id ∨ id = far edge := by
        rw [← same]
        exact walk.graph.setNode_holds row id
      have reaches : reach (far edge) := closed nodeId _ reached ⟨edge, listed, rfl, present⟩
      obtain ⟨after, ran, progress, visited, whole, sound⟩ := descends (far edge)
        ⟨(walk.graph.setNode row).pushEdge edge, walk.visited⟩ present settled.room
        (by
          intro id joined
          rcases (joins id).mp joined with old | new
          · exact .inl (settled.visited id old)
          · exact .inr new)
        (by
          intro id joined
          rcases (joins id).mp joined with old | rfl
          · exact settled.sound id old
          · exact reaches)
        reaches
      have added : Progress (relativeStep store list far) 1 TypeWalk.depths TypeWalk.Holds (relative store list far)
          walk ⟨(walk.graph.setNode row).pushEdge edge, walk.visited⟩ :=
        .of_eq rfl fun id old => (joins id).mpr (.inl old)
      refine ⟨after, ran, ⟨?_, whole, sound⟩, added.trans progress, fun _ => ⟨TypeWalk.covers_iff.mpr visited, ?_⟩⟩
      · exact lt_of_le_of_lt (progress.slack_le _) settled.room
      · exact progress.keeps _ ((joins _).mpr (.inr rfl))

/-- With enough fuel a call holds all relatives of its node that can be reached. -/
theorem typesRecursive_walks (closed : ∀ place next, reach place → relative store list far place next → reach next)
    (fuel : Nat) (nodeId : String) (walk : TypeWalk) (present : store.Exists nodeId)
    (room : slack 1 (store.nodes.map Node.id) walk.depths < fuel)
    (visited : ∀ id, walk.Holds id → id ∈ walk.visited ∨ id = nodeId)
    (sound : ∀ id, walk.Holds id → reach id) (reached : reach nodeId) :
    ∃ after, typesRecursive store list far fuel nodeId walk = some after ∧
      Progress (relativeStep store list far) 1 TypeWalk.depths TypeWalk.Holds (relative store list far) walk after ∧
      nodeId ∈ after.visited ∧ (∀ id, after.Holds id → id ∈ after.visited) ∧ ∀ id, after.Holds id → reach id := by
  induction fuel generalizing nodeId walk with
  | zero => exact absurd room (by omega)
  | succ fuel ih =>
    rw [typesRecursive]
    by_cases seen : nodeId ∈ walk.visited
    · rw [if_pos seen]
      refine ⟨walk, rfl, .refl _, seen, ?_, sound⟩
      intro id held
      rcases visited id held with already | rfl
      · exact already
      · exact seen
    · rw [if_neg seen]
      dsimp only
      have nearer : Nearer walk.depths nodeId 0 := by
        intro recorded found
        simp [TypeWalk.depths, seen] at found
      have entered : (TypeWalk.mk walk.graph (nodeId :: walk.visited)).depths =
          Function.update walk.depths nodeId (some 0) := by
        funext id
        by_cases same : id = nodeId
        · simp [TypeWalk.depths, same]
        · simp [TypeWalk.depths, same]
      have start : TypeWalk.Settled reach (store.nodes.map Node.id) fuel ⟨walk.graph, nodeId :: walk.visited⟩ := by
        refine ⟨?_, ?_, sound⟩
        · rw [entered]
          have used := slack_enter (GraphStore.exists_iff.mp present) nearer Nat.zero_lt_one
          omega
        · intro id held
          rcases visited id held with already | rfl
          · exact List.mem_cons_of_mem _ already
          · exact List.mem_cons_self
      obtain ⟨after, ran, settled, progress, visits⟩ := Progress.foldlM _
        (fun _ => TypeWalk.Settled reach (store.nodes.map Node.id) fuel)
        (fun walk edge => store.Exists (far edge) → Covers walk.depths (far edge) 0 ∧ walk.Holds (far edge))
        (list nodeId)
        (fun before after edge progress settled found =>
          ⟨progress.covers (settled found).1, progress.keeps _ (settled found).2⟩)
        (fun walk edge _ listed settled => visitRelative_walks closed
          (fun relativeId walk present room visited sound reached =>
            ih relativeId walk present room visited sound reached)
          reached walk settled edge listed) _ start
      refine ⟨after, ran, progress.enter nearer entered (fun _ held => held) ?_ ?_, ?_, settled.visited,
        settled.sound⟩
      · rintro cost next ⟨rfl, edge, listed, rfl, found⟩ _
        exact (visits edge listed found).1
      · rintro next ⟨edge, listed, rfl, found⟩
        exact (visits edge listed found).2
      · apply TypeWalk.covers_iff.mp
        apply progress.covers
        exact TypeWalk.covers_iff.mpr List.mem_cons_self

end Relatives

/-- A direct supertype is the existing target of an outgoing type edge. -/
def superStep (store : GraphStore) (place next : String) : Prop :=
  ∃ edge ∈ store.edges, edge.kind ∈ typeKinds ∧ edge.source = place ∧ edge.target = next ∧ store.Exists next

/-- A direct subtype is the existing source of an incoming type edge. -/
def subStep (store : GraphStore) (place next : String) : Prop :=
  ∃ edge ∈ store.edges, edge.kind ∈ typeKinds ∧ edge.target = place ∧ edge.source = next ∧ store.Exists next

def IsSupertype (store : GraphStore) (focal other : String) : Prop := Relation.TransGen (superStep store) focal other

def IsSubtype (store : GraphStore) (focal other : String) : Prop := Relation.TransGen (subStep store) focal other

theorem superStep_eq (store : GraphStore) :
    relative store (fun nodeId => store.outgoingEdgesKinds nodeId typeKinds) Edge.target = superStep store := by
  funext place next
  simp only [relative, superStep, GraphStore.mem_outgoingEdgesKinds, eq_iff_iff]
  constructor
  · intro ⟨edge, ⟨stored, source, kind⟩, target, present⟩
    exact ⟨edge, stored, kind, source, target, present⟩
  · intro ⟨edge, stored, kind, source, target, present⟩
    exact ⟨edge, ⟨stored, source, kind⟩, target, present⟩

/-- The upward walk holds the focal node and its supertypes, and it has visited the focal node. -/
theorem typeAncestors_exact {store : GraphStore} {nodeId : String} {focal : Node}
    (found : store.nodeById nodeId = some focal) {fuel : Nat} (enough : store.nodes.length < fuel) :
    ∃ walk, typeAncestors store fuel nodeId ⟨Subgraph.empty.setNode focal, []⟩ = some walk ∧
      nodeId ∈ walk.visited ∧ ∀ id, walk.Holds id ↔ id = nodeId ∨ IsSupertype store nodeId id := by
  have same : focal.id = nodeId := GraphStore.nodeById_id found
  have first (id : String) : (TypeWalk.mk (Subgraph.empty.setNode focal) []).Holds id → id = nodeId := by
    intro held
    rcases (Subgraph.setNode_holds _ _ _).mp held with old | new
    · cases old
    · exact new.trans same
  have room : slack 1 (store.nodes.map Node.id) (TypeWalk.mk (Subgraph.empty.setNode focal) []).depths < fuel := by
    have bound := slack_le 1 (store.nodes.map Node.id) (TypeWalk.mk (Subgraph.empty.setNode focal) []).depths
    rw [List.length_map] at bound
    omega
  have closed : ∀ place next, Relation.ReflTransGen (superStep store) nodeId place →
      relative store (fun nodeId => store.outgoingEdgesKinds nodeId typeKinds) Edge.target place next →
      Relation.ReflTransGen (superStep store) nodeId next := by
    rw [superStep_eq]
    intro place next reached step
    exact reached.tail step
  obtain ⟨walk, ran, progress, visited, -, sound⟩ :=
    typesRecursive_walks closed fuel nodeId _ ⟨focal, found⟩ room (fun id held => .inr (first id held))
    (fun id held => by rw [first id held]) Relation.ReflTransGen.refl
  refine ⟨walk, ran, visited, fun id => ⟨fun held => ?_, ?_⟩⟩
  · rcases Relation.reflTransGen_iff_eq_or_transGen.mp (sound id held) with rfl | above
    · exact .inl rfl
    · exact .inr above
  · -- Every node on the way up is visited, and a visited node holds its own supertypes.
    have climbs (other : String) (above : Relation.ReflTransGen (superStep store) nodeId other) :
        other ∈ walk.visited ∧ walk.Holds other := by
      induction above with
      | refl =>
        refine ⟨visited, progress.keeps nodeId ?_⟩
        exact (Subgraph.setNode_holds _ _ _).mpr (.inr same.symm)
      | @tail place next _ step ih =>
        have changed : walk.depths place ≠ (TypeWalk.mk (Subgraph.empty.setNode focal) []).depths place := by
          simp [TypeWalk.depths, ih.1]
        rw [← superStep_eq] at step
        have depth : walk.depths place = some 0 := by simp [TypeWalk.depths, ih.1]
        exact ⟨TypeWalk.covers_iff.mp (progress.relaxes place changed 0 0 next depth ⟨rfl, step⟩ Nat.zero_lt_one),
          progress.finishes place changed next step⟩
    rintro (rfl | above)
    · exact (climbs _ Relation.ReflTransGen.refl).2
    · exact (climbs _ above.to_reflTransGen).2

/-- The downward walk starts at a node that the upward walk has visited, so it adds nothing. -/
theorem typeDescendants_visited {store : GraphStore} {nodeId : String} {fuel : Nat} {walk : TypeWalk}
    (visited : nodeId ∈ walk.visited) (enough : 0 < fuel) : typeDescendants store fuel nodeId walk = some walk := by
  obtain ⟨more, rfl⟩ := Nat.exists_eq_succ_of_ne_zero enough.ne'
  rw [typeDescendants, typesRecursive, if_pos visited]

/-- The hierarchy of a node is found, and it holds exactly the node and its supertypes. -/
theorem type_hierarchy_holds_supertypes (store : GraphStore) (nodeId : String) (present : store.Exists nodeId)
    (fuel : Nat) (enough : store.nodes.length < fuel) : ∃ graph, getTypeHierarchy store fuel nodeId = some graph ∧
      ∀ id, graph.Holds id ↔ id = nodeId ∨ IsSupertype store nodeId id := by
  obtain ⟨focal, found⟩ := present
  obtain ⟨walk, ran, visited, holds⟩ := typeAncestors_exact found enough
  refine ⟨{ walk.graph with roots := [nodeId] }, ?_, holds⟩
  simp only [getTypeHierarchy, found, ran, Option.bind_eq_bind, Option.bind_some,
    typeDescendants_visited visited (Nat.zero_lt_of_lt enough)]
  rfl

/-- One class extends another. -/
def derivedStore : GraphStore :=
  GraphStore.inTableOrder [bareNode "Base" .class_, bareNode "Derived" .class_] [bareEdge "Derived" "Base" .extends_]
    (by decide)

/-- A class with one base. -/
theorem derived_class_hierarchy : derivedStore.Exists "Derived" ∧
    ∃ graph, getTypeHierarchy derivedStore 3 "Derived" = some graph ∧
      ∀ id, graph.Holds id ↔ id = "Derived" ∨ IsSupertype derivedStore "Derived" id := by
  have present : derivedStore.Exists "Derived" := ⟨bareNode "Derived" .class_, rfl⟩
  exact ⟨present, type_hierarchy_holds_supertypes derivedStore "Derived" present 3 (by decide)⟩

/-- The hierarchy of a base class leaves out its derived class. -/
theorem base_class_leaves_out_derived : derivedStore.Exists "Base" ∧
    IsSubtype derivedStore "Base" "Derived" ∧
    ∃ graph, getTypeHierarchy derivedStore 3 "Base" = some graph ∧ ¬ graph.Holds "Derived" := by
  refine ⟨⟨bareNode "Base" .class_, rfl⟩, ?_, _, rfl, ?_⟩
  · apply Relation.TransGen.single
    exact ⟨bareEdge "Derived" "Base" .extends_, by decide, by decide, rfl, rfl, bareNode "Derived" .class_, rfl⟩
  · intro held
    cases held

end Codegraph.Graph
