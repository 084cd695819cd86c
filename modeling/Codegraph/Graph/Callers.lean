import Codegraph.Graph.Traverser
import Codegraph.Library.DepthWalk

namespace Codegraph.Graph
open List

variable {visited : Depths} {nodeId : String}

open Codegraph.Core DepthWalk

theorem nearerThanBefore_iff {depth : Nat} :
    nearerThanBefore visited nodeId depth = true ↔ Nearer visited nodeId depth := by
  simp only [nearerThanBefore, Nearer, Option.all_eq_true, decide_eq_true_eq]

/-- Entering updates one depth, and a refused node is already covered. -/
theorem enterAtDepth_some {entered : Depths} {depth : Nat} (opened : enterAtDepth visited nodeId depth = some entered) :
    Nearer visited nodeId depth ∧ entered = Function.update visited nodeId (some depth) := by
  simp only [enterAtDepth] at opened
  split at opened
  · rename_i nearer
    exact ⟨nearerThanBefore_iff.mp nearer, (Option.some.inj opened).symm⟩
  · cases opened

theorem enterAtDepth_none {depth : Nat}
    (refused : enterAtDepth visited nodeId depth = none) : Covers visited nodeId depth := by
  simp only [enterAtDepth] at refused
  split at refused
  · cases refused
  · rename_i known
    exact covers_of_not_nearer fun nearer => known (nearerThanBefore_iff.mpr nearer)

def NodeEdge.pair (row : NodeEdge) : String × EdgeKind := (row.node.id, row.edge.kind)

section Neighbours

variable (store : GraphStore) (list : String → List Edge) (far : Edge → String)

/-- One step crosses a listed edge to a node that exists. -/
def neighbourStep (place : String) (cost : Nat) (next : String) : Prop :=
  cost = 1 ∧ ∃ edge ∈ list place, far edge = next ∧ store.Exists next

/-- A node owes a report of each of its neighbours under each edge kind. -/
def neighbourOwed (place : String) (pair : String × EdgeKind) : Prop :=
  ∃ edge ∈ list place, store.Exists (far edge) ∧ pair = (far edge, edge.kind)

def CallWalk.Reports (walk : CallWalk) (pair : String × EdgeKind) : Prop := pair ∈ walk.reported

variable {store list far} {maxDepth : Nat} {start : String}

@[simp] theorem CallWalk.report_visited (walk : CallWalk) (neighbour : Node) (edge : Edge) :
    (walk.report neighbour edge).visited = walk.visited := by
  simp only [CallWalk.report]
  split <;> rfl

theorem CallWalk.report_mem (walk : CallWalk) (neighbour : Node) (edge : Edge) (pair : String × EdgeKind) :
    pair ∈ (walk.report neighbour edge).reported ↔ pair ∈ walk.reported ∨ pair = (neighbour.id, edge.kind) := by
  simp only [CallWalk.report]
  split
  · rename_i known
    constructor
    · exact .inl
    · rintro (old | rfl)
      · exact old
      · exact known
  · rw [mem_cons, or_comm]

/-- A visited neighbour is covered and reported, when descending progresses and covers. -/
theorem visitNeighbour_progress {nodeId : String} {nextDepth : Nat} {descend : String → CallWalk → CallWalk}
    (descends : ∀ neighbourId walk,
      Progress (neighbourStep store list far) maxDepth CallWalk.visited CallWalk.Reports
          (neighbourOwed store list far) walk (descend neighbourId walk) ∧
        (nextDepth < maxDepth → Covers (descend neighbourId walk).visited neighbourId nextDepth))
    (walk : CallWalk) (edge : Edge) (listed : edge ∈ list nodeId) :
    Progress (neighbourStep store list far) maxDepth CallWalk.visited CallWalk.Reports (neighbourOwed store list far)
        walk (visitNeighbour (store.nodesByIds ((list nodeId).map far)) far nextDepth descend walk edge) ∧
      (store.Exists (far edge) →
        (nextDepth < maxDepth → Covers (visitNeighbour (store.nodesByIds ((list nodeId).map far)) far nextDepth
          descend walk edge).visited (far edge) nextDepth) ∧
        (visitNeighbour (store.nodesByIds ((list nodeId).map far)) far nextDepth descend walk edge).Reports
          (far edge, edge.kind)) := by
  simp only [visitNeighbour, GraphStore.nodesByIds_map listed]
  rcases found : store.nodeById (far edge) with _ | neighbour
  · refine ⟨.refl _, ?_⟩
    intro ⟨node, present⟩
    rw [found] at present
    cases present
  · have same : neighbour.id = far edge := GraphStore.nodeById_id found
    have reports : Progress (neighbourStep store list far) maxDepth CallWalk.visited CallWalk.Reports
        (neighbourOwed store list far) walk (walk.report neighbour edge) := by
      apply Progress.of_eq (CallWalk.report_visited walk neighbour edge)
      intro pair held
      exact (CallWalk.report_mem walk neighbour edge pair).mpr (.inl held)
    have reported : (walk.report neighbour edge).Reports (far edge, edge.kind) := by
      apply (CallWalk.report_mem walk neighbour edge _).mpr
      rw [same]
      exact .inr rfl
    by_cases nearer : nearerThanBefore walk.visited neighbour.id nextDepth = true
    · obtain ⟨progress, covers⟩ := descends neighbour.id (walk.report neighbour edge)
      simp only [nearer, if_true]
      refine ⟨reports.trans progress, fun _ => ⟨?_, progress.keeps _ reported⟩⟩
      rw [← same]
      exact covers
    · simp only [nearer, Bool.false_eq_true, if_false]
      refine ⟨reports, fun _ => ⟨fun _ => ?_, reported⟩⟩
      rw [CallWalk.report_visited, ← same]
      exact covers_of_not_nearer fun near => nearer (nearerThanBefore_iff.mpr near)

/-- The walk progresses over a call, and the call covers its own node. -/
theorem neighboursRecursive_progress (nodeId : String) (depth : Nat) (walk : CallWalk) :
    Progress (neighbourStep store list far) maxDepth CallWalk.visited CallWalk.Reports (neighbourOwed store list far)
        walk (neighboursRecursive store list far maxDepth nodeId depth walk) ∧
      (depth < maxDepth →
        Covers (neighboursRecursive store list far maxDepth nodeId depth walk).visited nodeId depth) := by
  -- The induction is on the depth that is left below the limit.
  induction left : maxDepth - depth using Nat.strongRecOn generalizing nodeId depth walk with
  | _ remaining ih =>
    rw [neighboursRecursive]
    split
    · rename_i deep
      exact ⟨.refl _, fun within => absurd within (by omega)⟩
    rename_i shallow
    split
    · rename_i refused
      exact ⟨.refl _, fun _ => enterAtDepth_none refused⟩
    rename_i visited opened
    obtain ⟨nearer, entered⟩ := enterAtDepth_some opened
    dsimp only
    obtain ⟨progress, visits⟩ := Progress.foldl
      (visitNeighbour (store.nodesByIds ((list nodeId).map far)) far (depth + 1)
        fun neighbourId walk => neighboursRecursive store list far maxDepth neighbourId (depth + 1) walk)
      (fun walk edge => store.Exists (far edge) →
        (depth + 1 < maxDepth → Covers walk.visited (far edge) (depth + 1)) ∧ walk.Reports (far edge, edge.kind))
      (list nodeId)
      (fun before after edge progress settled present =>
        ⟨fun within => progress.covers ((settled present).1 within), progress.keeps _ (settled present).2⟩)
      (fun walk edge listed => visitNeighbour_progress
        (fun neighbourId walk => ih (maxDepth - (depth + 1)) (by omega) neighbourId (depth + 1) walk rfl)
        walk edge listed)
      { walk with visited := visited }
    refine ⟨progress.enter nearer entered (fun _ held => held) ?_ ?_, fun _ => ?_⟩
    · rintro cost next ⟨rfl, edge, listed, rfl, present⟩ within
      exact (visits edge listed present).1 within
    · rintro pair ⟨edge, listed, present, rfl⟩
      exact (visits edge listed present).2
    · apply progress.covers
      refine ⟨depth, le_rfl, ?_⟩
      rw [entered]
      exact Function.update_self _ _ _

/-- A sound walk records routes only, and its rows are the reported pairs in order, each once. -/
structure CallWalk.Sound (store : GraphStore) (list : String → List Edge) (far : Edge → String) (maxDepth : Nat)
    (start : String) (walk : CallWalk) : Prop where
  routed : Routed (neighbourStep store list far) maxDepth start walk.visited
  justified : ∀ pair ∈ walk.reported, ∃ depth place, Route (neighbourStep store list far) start depth place ∧
    depth < maxDepth ∧ neighbourOwed store list far place pair
  aligned : walk.result.map NodeEdge.pair = walk.reported.reverse
  unique : walk.reported.Nodup

theorem CallWalk.Sound.empty : CallWalk.empty.Sound store list far maxDepth start :=
  ⟨fun _ _ found => (by cases found), fun _ member => absurd member not_mem_nil, rfl, nodup_nil⟩

/-- Reporting a neighbour keeps the walk sound. -/
theorem CallWalk.Sound.report {walk : CallWalk} {nodeId : String} {depth : Nat} {neighbour : Node} {edge : Edge}
    (sound : walk.Sound store list far maxDepth start)
    (route : Route (neighbourStep store list far) start depth nodeId) (within : depth < maxDepth)
    (listed : edge ∈ list nodeId) (found : store.nodeById (far edge) = some neighbour) :
    (walk.report neighbour edge).Sound store list far maxDepth start := by
  have same : neighbour.id = far edge := GraphStore.nodeById_id found
  simp only [CallWalk.report]
  split
  · exact sound
  · rename_i fresh
    refine ⟨sound.routed, ?_, ?_, nodup_cons.mpr ⟨fresh, sound.unique⟩⟩
    · intro pair member
      rcases mem_cons.mp member with rfl | old
      · exact ⟨depth, nodeId, route, within, edge, listed, ⟨neighbour, found⟩, by rw [same]⟩
      · exact sound.justified pair old
    · simp only [map_append, map_cons, map_nil, reverse_cons, sound.aligned]
      rfl

/-- The walk stays sound over a call. -/
theorem neighboursRecursive_sound (nodeId : String) (depth : Nat) (walk : CallWalk)
    (route : Route (neighbourStep store list far) start depth nodeId)
    (sound : walk.Sound store list far maxDepth start) :
    (neighboursRecursive store list far maxDepth nodeId depth walk).Sound store list far maxDepth start := by
  induction left : maxDepth - depth using Nat.strongRecOn generalizing nodeId depth walk with
  | _ remaining ih =>
    rw [neighboursRecursive]
    split
    · exact sound
    rename_i shallow
    split
    · exact sound
    rename_i visited opened
    obtain ⟨-, entered⟩ := enterAtDepth_some opened
    dsimp only
    refine foldlRecOn (list nodeId) _ ?_ ?_
    · refine ⟨?_, sound.justified, sound.aligned, sound.unique⟩
      rw [entered]
      exact sound.routed.enter route (by omega)
    · intro reached intact edge listed
      simp only [visitNeighbour, GraphStore.nodesByIds_map listed]
      rcases found : store.nodeById (far edge) with _ | neighbour
      · exact intact
      · have same : neighbour.id = far edge := GraphStore.nodeById_id found
        have reports := intact.report route (by omega) listed found
        dsimp only
        split
        · apply ih (maxDepth - (depth + 1)) (by omega) neighbour.id (depth + 1) _ _ reports rfl
          exact route.step ⟨rfl, edge, listed, same.symm, neighbour, by rw [same]; exact found⟩
        · exact reports

/-- The reported pairs are the far ends and kinds of the edges at a distance below the limit, each once. -/
theorem neighbours_exact (store : GraphStore) (list : String → List Edge) (far : Edge → String) (maxDepth : Nat)
    (start : String) :
    let pairs := (neighboursRecursive store list far maxDepth start 0 CallWalk.empty).result.map NodeEdge.pair
    pairs.Nodup ∧ ∀ pair, pair ∈ pairs ↔
      ∃ place, distance (neighbourStep store list far) start place < maxDepth ∧
        neighbourOwed store list far place pair := by
  obtain ⟨progress, begun⟩ := @neighboursRecursive_progress store list far maxDepth start 0 .empty
  have sound := @neighboursRecursive_sound store list far maxDepth start start 0 .empty .here
    .empty
  have recorded (place : String) := @Progress.recorded_iff _ _ _ _ _ _ _ _ _ _ start place progress
    (fun _ => rfl) begun sound.routed
  simp only [sound.aligned, nodup_reverse, mem_reverse]
  refine ⟨sound.unique, fun pair => ⟨?_, ?_⟩⟩
  · intro reported
    obtain ⟨depth, place, route, within, owed⟩ := sound.justified pair reported
    exact ⟨place, distance_lt_iff.mpr ⟨depth, within, route⟩, owed⟩
  · intro ⟨place, near, owed⟩
    exact progress.finishes place ((recorded place).mpr near) pair owed

end Neighbours

/-- Stepping to a caller crosses an incoming edge whose source exists. -/
def callerStep (store : GraphStore) (place : String) (cost : Nat) (next : String) : Prop :=
  cost = 1 ∧ ∃ edge ∈ store.edges, edge.kind ∈ callKinds ∧ edge.target = place ∧ edge.source = next ∧
    store.Exists next

def calleeStep (store : GraphStore) (place : String) (cost : Nat) (next : String) : Prop :=
  cost = 1 ∧ ∃ edge ∈ store.edges, edge.kind ∈ callKinds ∧ edge.source = place ∧ edge.target = next ∧
    store.Exists next

theorem callerStep_eq (store : GraphStore) :
    neighbourStep store (fun nodeId => store.incomingEdgesKinds nodeId callKinds) Edge.source =
      callerStep store := by
  funext place cost next
  simp only [neighbourStep, callerStep, GraphStore.mem_incomingEdgesKinds, eq_iff_iff]
  constructor
  · intro ⟨one, edge, ⟨stored, target, kind⟩, source, present⟩
    exact ⟨one, edge, stored, kind, target, source, present⟩
  · intro ⟨one, edge, stored, kind, target, source, present⟩
    exact ⟨one, edge, ⟨stored, target, kind⟩, source, present⟩

theorem calleeStep_eq (store : GraphStore) :
    neighbourStep store (fun nodeId => store.outgoingEdgesKinds nodeId callKinds) Edge.target =
      calleeStep store := by
  funext place cost next
  simp only [neighbourStep, calleeStep, GraphStore.mem_outgoingEdgesKinds, eq_iff_iff]
  constructor
  · intro ⟨one, edge, ⟨stored, source, kind⟩, target, present⟩
    exact ⟨one, edge, stored, kind, source, target, present⟩
  · intro ⟨one, edge, stored, kind, source, target, present⟩
    exact ⟨one, edge, ⟨stored, source, kind⟩, target, present⟩

/-- Callers are the sources of the calls at a distance below the limit, each with a kind once. -/
theorem getCallers_exact (store : GraphStore) (start : String) (maxDepth : Nat) :
    ((getCallers store start maxDepth).map NodeEdge.pair).Nodup ∧
      ∀ pair, pair ∈ (getCallers store start maxDepth).map NodeEdge.pair ↔
        ∃ edge ∈ store.edges, edge.kind ∈ callKinds ∧ store.Exists edge.source ∧
          distance (callerStep store) start edge.target < maxDepth ∧ pair = (edge.source, edge.kind) := by
  obtain ⟨unique, exact_⟩ := neighbours_exact store (fun nodeId => store.incomingEdgesKinds nodeId callKinds)
    Edge.source maxDepth start
  refine ⟨unique, fun pair => (exact_ pair).trans ?_⟩
  rw [callerStep_eq]
  simp only [neighbourOwed, GraphStore.mem_incomingEdgesKinds]
  constructor
  · rintro ⟨place, near, edge, ⟨stored, rfl, kind⟩, present, rfl⟩
    exact ⟨edge, stored, kind, present, near, rfl⟩
  · rintro ⟨edge, stored, kind, present, near, rfl⟩
    exact ⟨edge.target, near, edge, ⟨stored, rfl, kind⟩, present, rfl⟩

/-- Callees are the targets of the calls at a distance below the limit, each with a kind once. -/
theorem getCallees_exact (store : GraphStore) (start : String) (maxDepth : Nat) :
    ((getCallees store start maxDepth).map NodeEdge.pair).Nodup ∧
      ∀ pair, pair ∈ (getCallees store start maxDepth).map NodeEdge.pair ↔
        ∃ edge ∈ store.edges, edge.kind ∈ callKinds ∧ store.Exists edge.target ∧
          distance (calleeStep store) start edge.source < maxDepth ∧ pair = (edge.target, edge.kind) := by
  obtain ⟨unique, exact_⟩ := neighbours_exact store (fun nodeId => store.outgoingEdgesKinds nodeId callKinds)
    Edge.target maxDepth start
  refine ⟨unique, fun pair => (exact_ pair).trans ?_⟩
  rw [calleeStep_eq]
  simp only [neighbourOwed, GraphStore.mem_outgoingEdgesKinds]
  constructor
  · rintro ⟨place, near, edge, ⟨stored, rfl, kind⟩, present, rfl⟩
    exact ⟨edge, stored, kind, present, near, rfl⟩
  · rintro ⟨edge, stored, kind, present, near, rfl⟩
    exact ⟨edge.source, near, edge, ⟨stored, rfl, kind⟩, present, rfl⟩

theorem callerStep_sameTables {store other : GraphStore} (same : store.SameTables other) :
    callerStep other = callerStep store := by
  funext place cost next
  simp only [callerStep, same.mem_edges, same.exists_iff]

theorem calleeStep_sameTables {store other : GraphStore} (same : store.SameTables other) :
    calleeStep other = calleeStep store := by
  funext place cost next
  simp only [calleeStep, same.mem_edges, same.exists_iff]

/-- Callers and callees are exactly the ends of the edges within the distance, each pair once, in any listing order. -/
theorem callers_within_distance (store : GraphStore) (start : String) (maxDepth : Nat) :
    (((getCallers store start maxDepth).map NodeEdge.pair).Nodup ∧
      ∀ pair, pair ∈ (getCallers store start maxDepth).map NodeEdge.pair ↔
        ∃ edge ∈ store.edges, edge.kind ∈ callKinds ∧ store.Exists edge.source ∧
          distance (callerStep store) start edge.target < maxDepth ∧ pair = (edge.source, edge.kind)) ∧
    (((getCallees store start maxDepth).map NodeEdge.pair).Nodup ∧
      ∀ pair, pair ∈ (getCallees store start maxDepth).map NodeEdge.pair ↔
        ∃ edge ∈ store.edges, edge.kind ∈ callKinds ∧ store.Exists edge.target ∧
          distance (calleeStep store) start edge.source < maxDepth ∧ pair = (edge.target, edge.kind)) ∧
    ∀ other, store.SameTables other →
      ((getCallers other start maxDepth).map NodeEdge.pair).Perm
          ((getCallers store start maxDepth).map NodeEdge.pair) ∧
        ((getCallees other start maxDepth).map NodeEdge.pair).Perm
          ((getCallees store start maxDepth).map NodeEdge.pair) := by
  have callers := getCallers_exact store start maxDepth
  have callees := getCallees_exact store start maxDepth
  refine ⟨callers, callees, fun other same => ⟨?_, ?_⟩⟩
  · obtain ⟨unique, members⟩ := getCallers_exact other start maxDepth
    apply (perm_ext_iff_of_nodup unique callers.1).mpr
    intro pair
    rw [members, callers.2]
    simp only [callerStep_sameTables same, same.mem_edges, same.exists_iff]
  · obtain ⟨unique, members⟩ := getCallees_exact other start maxDepth
    apply (perm_ext_iff_of_nodup unique callees.1).mpr
    intro pair
    rw [members, callees.2]
    simp only [calleeStep_sameTables same, same.mem_edges, same.exists_iff]

end Codegraph.Graph
