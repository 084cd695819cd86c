import Codegraph.Graph.Traverser
import Codegraph.Library.Breadth
import Codegraph.Library.Occurrences
import Mathlib.Data.Finset.Union
import Mathlib.Data.List.Sort

/- This file holds the walk over the subtypes of a type, and the levels of its subtypes. -/

namespace Codegraph.Graph
open Codegraph.Core Occurrences

def maxDescendantDepth : Nat := 6

def maxDescendants : Nat := 400

/-- A relation tells how a subtype is tied to its supertype. -/
inductive HierarchyRelation where
  | extends_
  | implements
  deriving DecidableEq

def HierarchyRelation.of (edge : Edge) : HierarchyRelation :=
  if edge.kind = .implements then .implements else .extends_

/-- The parent is the entry one step nearer the focus, or the focus itself. The edge leads from the subtype to the
supertype, and the hidden subtypes are those that the result leaves out. -/
structure HierarchyEntry where
  node : Node
  depth : Nat
  parentId : String
  relation : HierarchyRelation
  edge : Edge
  synthesized : Bool
  hiddenSubtypes : Nat
  deriving DecidableEq

def HierarchyEntry.id (entry : HierarchyEntry) : String := entry.node.id

/-- A query lists the type edges into a set of ids in an order of its own, and every edge has a stored source. -/
structure HierarchyStore where
  tables : GraphStore
  listedInto : Finset String → List Edge
  listedAll : ∀ ids, (listedInto ids).Perm (tables.edges.filter fun edge => edge.target ∈ ids ∧ edge.kind ∈ typeKinds)
  sourceStored : ∀ edge ∈ tables.edges, tables.Exists edge.source

def HierarchyStore.hierarchyEdges (store : HierarchyStore) (ids : List String) : List Edge :=
  store.listedInto ids.toFinset

def isHeuristic (edge : Edge) : Bool := edge.provenance = some "heuristic"

def toEntry (node : Node) (depth : Nat) (parentId : String) (edge : Edge) : HierarchyEntry :=
  ⟨node, depth, parentId, .of edge, edge, isHeuristic edge, 0⟩

/-- The change reaches the first entry with an id. -/
def modifyEntry (id : String) (change : HierarchyEntry → HierarchyEntry) : List HierarchyEntry → List HierarchyEntry
  | [] => []
  | entry :: rest => if entry.id = id then change entry :: rest else entry :: modifyEntry id change rest

/-- A second edge replaces the first one when it extends and the first one implements. -/
def HierarchyEntry.upgrade (edge : Edge) (entry : HierarchyEntry) : HierarchyEntry :=
  if entry.relation = .implements ∧ edge.kind = .extends_ then
    { entry with relation := .extends_, synthesized := isHeuristic edge, edge := edge }
  else entry

def HierarchyEntry.hide (count : Nat) (entry : HierarchyEntry) : HierarchyEntry :=
  { entry with hiddenSubtypes := entry.hiddenSubtypes + count }

/-- The overflow counts the subtypes that found no room, each under the target of its edge. -/
def bumpOverflow (target : String) : List (String × Nat) → List (String × Nat)
  | [] => [(target, 1)]
  | (id, count) :: rest => if id = target then (id, count + 1) :: rest else (id, count) :: bumpOverflow target rest

structure LevelScan where
  level : List HierarchyEntry
  overflow : List (String × Nat)
  levelSeen : List String
  directTotal : Nat
  directImplementers : Nat
  bounded : Bool

/-- A direct subtype counts as an implementer by the edge that lists it first. -/
def LevelScan.countDirect (depth : Nat) (edge : Edge) (scan : LevelScan) : LevelScan :=
  if depth = 1 then
    { scan with
      directTotal := scan.directTotal + 1
      directImplementers := if edge.kind = .implements then scan.directImplementers + 1 else scan.directImplementers }
  else scan

def LevelScan.scanEdge (nodes : String → Option Node) (seen : List String) (shown depth : Nat) (scan : LevelScan)
    (edge : Edge) : LevelScan :=
  match nodes edge.source with
  | none => scan
  | some node =>
    if node.id ∈ seen then scan
    else if node.id ∈ scan.levelSeen then
      { scan with level := modifyEntry node.id (HierarchyEntry.upgrade edge) scan.level }
    else
      let scan := scan.countDirect depth edge
      if shown + scan.level.length ≥ maxDescendants then
        { scan with
          bounded := true
          overflow := bumpOverflow edge.target scan.overflow
          levelSeen := node.id :: scan.levelSeen }
      else
        { scan with
          levelSeen := node.id :: scan.levelSeen
          level := scan.level ++ [toEntry node depth edge.target edge] }

section Sorting

variable (toLowercase : String → String)

def localeCmp (first second : String) : Ordering :=
  (compare (toLowercase first) (toLowercase second)).then (compare first second)

/-- An entry that extends comes before one that implements. -/
def relationRank (relation : HierarchyRelation) : Nat := if relation = .extends_ then 0 else 1

def entryCmp (first second : HierarchyEntry) : Ordering :=
  (compare (relationRank first.relation) (relationRank second.relation)).then <|
    (localeCmp toLowercase first.node.name second.node.name).then <|
      (localeCmp toLowercase first.node.filePath second.node.filePath).then <|
        compare first.node.startLine second.node.startLine

def sortLevel (level : List HierarchyEntry) : List HierarchyEntry :=
  level.insertionSort fun first second => (entryCmp toLowercase first second).isLE

end Sorting

/-- The state of a walk over the descendants. -/
structure DescendantWalk where
  entries : List HierarchyEntry
  seen : List String
  frontier : List String
  directTotal : Nat
  directImplementers : Nat
  bounded : Bool

def DescendantWalk.scanLevel (store : HierarchyStore) (depth : Nat) (edges : List Edge) (walk : DescendantWalk) :
    LevelScan :=
  edges.foldl (LevelScan.scanEdge (store.tables.nodesByIds (edges.map Edge.source)) walk.seen walk.entries.length depth)
    ⟨[], [], [], walk.directTotal, walk.directImplementers, walk.bounded⟩

/-- The sorted level joins the entries, and the overflow is hidden under the entries that it belongs to. -/
def DescendantWalk.settle (toLowercase : String → String) (scan : LevelScan) (walk : DescendantWalk) :
    DescendantWalk where
  entries := scan.overflow.foldl (fun entries hidden => modifyEntry hidden.1 (HierarchyEntry.hide hidden.2) entries)
    (walk.entries ++ sortLevel toLowercase scan.level)
  seen := scan.level.map HierarchyEntry.id ++ walk.seen
  frontier := walk.frontier
  directTotal := scan.directTotal
  directImplementers := scan.directImplementers
  bounded := scan.bounded

/-- Below the deepest level every edge to a type that was not seen is hidden under its target. -/
def DescendantWalk.countDeeper (edges : List Edge) (walk : DescendantWalk) : DescendantWalk :=
  edges.foldl (fun walk edge =>
    if edge.source ∈ walk.seen then walk
    else { walk with
      bounded := true
      entries := modifyEntry edge.target (HierarchyEntry.hide 1) walk.entries }) walk

/-- The levels are walked until one is empty, one overflows, or the deepest is done. -/
def DescendantWalk.run (store : HierarchyStore) (toLowercase : String → String) :
    Nat → Nat → DescendantWalk → DescendantWalk
  | 0, _, walk => walk
  | left + 1, depth, walk =>
    if walk.frontier.isEmpty then walk
    else
      let edges := store.hierarchyEdges walk.frontier
      if edges.isEmpty then walk
      else
        let walk := walk.settle toLowercase (walk.scanLevel store depth edges)
        if walk.bounded then walk
        else
          let frontier := (walk.entries.filter fun entry => entry.depth = depth).map HierarchyEntry.id
          let walk := { walk with frontier := frontier }
          let walk := if depth = maxDescendantDepth ∧ !frontier.isEmpty then
            walk.countDeeper (store.hierarchyEdges frontier) else walk
          DescendantWalk.run store toLowercase left (depth + 1) walk

structure Down where
  entries : List HierarchyEntry
  directTotal : Nat
  directImplementers : Nat
  bounded : Bool

def walkDescendants (store : HierarchyStore) (toLowercase : String → String) (focus : Node) : Down :=
  let walk := DescendantWalk.run store toLowercase maxDescendantDepth 1 ⟨[], [focus.id], [focus.id], 0, 0, false⟩
  ⟨walk.entries, walk.directTotal, walk.directImplementers, walk.bounded⟩

section Levels

variable (store : HierarchyStore) (focus : String)

/-- A type edge leads from a subtype to one of its supertypes. -/
def HierarchyStore.edgesInto (ids : Finset String) : List Edge :=
  store.tables.edges.filter fun edge => edge.target ∈ ids ∧ edge.kind ∈ typeKinds

def HierarchyStore.subtypesOf (ids : Finset String) : Finset String := ((store.edgesInto ids).map Edge.source).toFinset

/-- The types within a distance of the focus. -/
def HierarchyStore.typesWithin : Nat → Finset String
  | 0 => {focus}
  | depth + 1 => HierarchyStore.typesWithin depth ∪ store.subtypesOf (HierarchyStore.typesWithin depth)

def HierarchyStore.typesAt : Nat → Finset String
  | 0 => {focus}
  | depth + 1 => store.typesWithin focus (depth + 1) \ store.typesWithin focus depth

/-- The subtypes within a distance, without the focus. -/
def HierarchyStore.subtypesWithin (depth : Nat) : Finset String := (store.typesWithin focus depth).erase focus

/-- The level below a depth is the first one that the count of entries has no room for. -/
def HierarchyStore.Overfull (depth : Nat) : Prop :=
  depth < maxDescendantDepth ∧ (store.subtypesWithin focus depth).card ≤ maxDescendants ∧
    maxDescendants < (store.subtypesWithin focus (depth + 1)).card

/-- The types of the next level in the order in which the query lists them first. -/
def HierarchyStore.nextListed (depth : Nat) : List String :=
  firsts Edge.source ((store.listedInto (store.typesAt focus depth)).filter fun edge =>
    edge.source ∉ store.typesWithin focus depth)

/-- The types of an overfull level that still find room, and those that do not. -/
def HierarchyStore.roomy (depth : Nat) : List String :=
  (store.nextListed focus depth).take (maxDescendants - (store.subtypesWithin focus depth).card)

def HierarchyStore.crowded (depth : Nat) : List String :=
  (store.nextListed focus depth).drop (maxDescendants - (store.subtypesWithin focus depth).card)

/-- Stepping to a subtype follows a type edge from its target to its source. -/
def HierarchyStore.subtypeStep (place next : String) : Prop :=
  ∃ edge ∈ store.tables.edges, edge.kind ∈ typeKinds ∧ edge.target = place ∧ edge.source = next

variable {store focus} {id : String} {ids : Finset String} {depth other : Nat} {edge : Edge}

theorem HierarchyStore.mem_edgesInto :
    edge ∈ store.edgesInto ids ↔ edge ∈ store.tables.edges ∧ edge.target ∈ ids ∧ edge.kind ∈ typeKinds := by
  simp only [edgesInto, List.mem_filter, decide_eq_true_eq]

theorem HierarchyStore.mem_listedInto : edge ∈ store.listedInto ids ↔ edge ∈ store.edgesInto ids :=
  (store.listedAll ids).mem_iff

theorem HierarchyStore.mem_subtypesOf : id ∈ store.subtypesOf ids ↔ ∃ edge ∈ store.edgesInto ids, edge.source = id := by
  simp only [subtypesOf, List.mem_toFinset, List.mem_map]

theorem HierarchyStore.mem_subtypesOf_iff_step :
    id ∈ store.subtypesOf ids ↔ ∃ place ∈ ids, store.subtypeStep place id := by
  rw [mem_subtypesOf]
  constructor
  · rintro ⟨edge, listed, rfl⟩
    obtain ⟨stored, target, kind⟩ := mem_edgesInto.1 listed
    exact ⟨edge.target, target, edge, stored, kind, rfl, rfl⟩
  · rintro ⟨place, among, edge, stored, kind, rfl, rfl⟩
    exact ⟨edge, mem_edgesInto.2 ⟨stored, among, kind⟩, rfl⟩

/-- The types within a distance are those that a walk no longer than it leads to. -/
theorem HierarchyStore.mem_typesWithin :
    id ∈ store.typesWithin focus depth ↔ ∃ near ≤ depth, Breadth.Walk store.subtypeStep {focus} near id := by
  induction depth generalizing id with
  | zero =>
    simp only [typesWithin, Finset.mem_singleton, Nat.le_zero]
    constructor
    · rintro rfl
      exact ⟨0, rfl, .here rfl⟩
    · rintro ⟨near, rfl, walk⟩
      cases walk with
      | here begun => exact begun
  | succ depth ih =>
    simp only [typesWithin, Finset.mem_union, mem_subtypesOf_iff_step, ih]
    constructor
    · rintro (⟨near, bound, walk⟩ | ⟨place, ⟨near, bound, walk⟩, taken⟩)
      · exact ⟨near, by omega, walk⟩
      · exact ⟨near + 1, by omega, walk.step taken⟩
    · rintro ⟨near, bound, walk⟩
      cases walk with
      | here begun => exact .inl ⟨0, Nat.zero_le _, .here begun⟩
      | @step near place _ walk taken => exact .inr ⟨place, ⟨near, by omega, walk⟩, taken⟩

theorem HierarchyStore.mem_typesAt :
    id ∈ store.typesAt focus depth ↔ Breadth.At store.subtypeStep {focus} depth id := by
  rcases depth with _ | depth
  · rw [typesAt, Finset.mem_singleton, Breadth.at_zero_iff, Set.mem_singleton_iff]
  · rw [typesAt, Finset.mem_sdiff, mem_typesWithin, mem_typesWithin]
    constructor
    · rintro ⟨⟨near, bound, walk⟩, far⟩
      obtain ⟨least, below, at_⟩ := walk.exists_at
      have deep : ¬ least ≤ depth := fun shallow => far ⟨least, shallow, at_.1⟩
      obtain rfl : least = depth + 1 := by omega
      exact at_
    · rintro at_
      refine ⟨⟨depth + 1, le_rfl, at_.1⟩, ?_⟩
      rintro ⟨near, bound, walk⟩
      have least := at_.2 near walk
      omega

theorem HierarchyStore.typesWithin_mono (below : depth ≤ other) :
    store.typesWithin focus depth ⊆ store.typesWithin focus other := by
  intro id member
  obtain ⟨near, bound, walk⟩ := mem_typesWithin.1 member
  exact mem_typesWithin.2 ⟨near, bound.trans below, walk⟩

theorem HierarchyStore.focus_within : focus ∈ store.typesWithin focus depth :=
  mem_typesWithin.2 ⟨0, Nat.zero_le _, .here rfl⟩

theorem HierarchyStore.typesAt_subset (below : depth ≤ other) :
    store.typesAt focus depth ⊆ store.typesWithin focus other := by
  intro id member
  exact mem_typesWithin.2 ⟨depth, below, (mem_typesAt.1 member).1⟩

/-- A type within a distance lies on one of the levels up to it. -/
theorem HierarchyStore.mem_typesWithin_iff_typesAt :
    id ∈ store.typesWithin focus depth ↔ ∃ near ≤ depth, id ∈ store.typesAt focus near := by
  constructor
  · intro member
    obtain ⟨near, bound, walk⟩ := mem_typesWithin.1 member
    obtain ⟨least, below, at_⟩ := walk.exists_at
    exact ⟨least, by omega, mem_typesAt.2 at_⟩
  · rintro ⟨near, bound, member⟩
    exact typesAt_subset bound member

theorem HierarchyStore.typesAt_unique (first : id ∈ store.typesAt focus depth)
    (second : id ∈ store.typesAt focus other) : depth = other := (mem_typesAt.1 first).unique (mem_typesAt.1 second)

/-- The subtypes of a level lie at most one level further. -/
theorem HierarchyStore.subtypes_within (place : id ∈ store.typesAt focus depth) :
    store.subtypesOf {id} ⊆ store.typesWithin focus (depth + 1) := by
  intro next member
  obtain ⟨_, same, taken⟩ := mem_subtypesOf_iff_step.1 member
  obtain rfl := Finset.mem_singleton.mp same
  exact mem_typesWithin.2 ⟨depth + 1, le_rfl, (mem_typesAt.1 place).1.step taken⟩

/-- The next level holds the sources of the edges into a level that were not within it. -/
theorem HierarchyStore.mem_next_level : id ∈ store.typesAt focus (depth + 1) ↔
    id ∉ store.typesWithin focus depth ∧ ∃ edge ∈ store.edgesInto (store.typesAt focus depth), edge.source = id := by
  constructor
  · intro member
    obtain ⟨place, near, taken⟩ := (mem_typesAt.1 member).pred
    have far := (Finset.mem_sdiff.mp member).2
    exact ⟨far, mem_subtypesOf.1 (mem_subtypesOf_iff_step.2 ⟨place, mem_typesAt.2 near, taken⟩)⟩
  · rintro ⟨far, edge, listed, rfl⟩
    obtain ⟨stored, target, kind⟩ := mem_edgesInto.1 listed
    refine Finset.mem_sdiff.mpr ⟨?_, far⟩
    exact mem_typesWithin.2 ⟨depth + 1, le_rfl, (mem_typesAt.1 target).1.step ⟨edge, stored, kind, rfl, rfl⟩⟩

/-- Without edges into a level there is no next level. -/
theorem HierarchyStore.next_level_empty (none_ : store.edgesInto (store.typesAt focus depth) = []) :
    store.typesAt focus (depth + 1) = ∅ := by
  refine Finset.eq_empty_of_forall_notMem fun id member => ?_
  obtain ⟨-, edge, into, -⟩ := mem_next_level.1 member
  rw [none_] at into
  cases into

theorem HierarchyStore.edgesInto_empty : store.edgesInto ∅ = [] := by simp [edgesInto]

theorem HierarchyStore.mem_nextListed : id ∈ store.nextListed focus depth ↔ id ∈ store.typesAt focus (depth + 1) := by
  rw [nextListed, mem_firsts, mem_next_level]
  simp only [List.mem_filter, decide_eq_true_eq, mem_listedInto]
  constructor
  · rintro ⟨edge, ⟨listed, far⟩, rfl⟩
    exact ⟨far, edge, listed, rfl⟩
  · rintro ⟨far, edge, listed, rfl⟩
    exact ⟨edge, ⟨listed, far⟩, rfl⟩

theorem HierarchyStore.nextListed_length :
    (store.nextListed focus depth).length = (store.typesAt focus (depth + 1)).card := by
  rw [nextListed, firsts_length]
  intro id
  rw [← mem_firsts, ← nextListed, mem_nextListed]

theorem HierarchyStore.subtypesWithin_zero : store.subtypesWithin focus 0 = ∅ := by
  simp [subtypesWithin, typesWithin]

theorem HierarchyStore.subtypesWithin_succ : store.subtypesWithin focus (depth + 1) =
    store.subtypesWithin focus depth ∪ store.typesAt focus (depth + 1) := by
  ext id
  simp only [subtypesWithin, Finset.mem_erase, Finset.mem_union, typesAt, Finset.mem_sdiff]
  have grows : id ∈ store.typesWithin focus depth → id ∈ store.typesWithin focus (depth + 1) :=
    fun member => typesWithin_mono (Nat.le_succ depth) member
  have begun : id = focus → id ∈ store.typesWithin focus depth := by
    rintro rfl
    exact focus_within
  tauto

theorem HierarchyStore.card_subtypesWithin_succ : (store.subtypesWithin focus (depth + 1)).card =
    (store.subtypesWithin focus depth).card + (store.nextListed focus depth).length := by
  rw [subtypesWithin_succ, nextListed_length, Finset.card_union_of_disjoint]
  refine Finset.disjoint_left.mpr fun id near far => ?_
  exact (Finset.mem_sdiff.mp far).2 (Finset.mem_of_mem_erase near)

/-- A level lies among the subtypes when it is not that of the focus. -/
theorem HierarchyStore.typesAt_succ_subset (below : depth < other) :
    store.typesAt focus (depth + 1) ⊆ store.subtypesWithin focus other := by
  intro id member
  refine Finset.mem_erase.mpr ⟨?_, typesAt_subset below member⟩
  rintro rfl
  exact (Finset.mem_sdiff.mp member).2 focus_within

theorem HierarchyStore.mem_subtypesWithin :
    id ∈ store.subtypesWithin focus depth ↔ ∃ level < depth, id ∈ store.typesAt focus (level + 1) := by
  constructor
  · intro member
    obtain ⟨differs, within⟩ := Finset.mem_erase.mp member
    obtain ⟨near, bound, at_⟩ := mem_typesWithin_iff_typesAt.1 within
    rcases near with _ | level
    · exact absurd (Finset.mem_singleton.mp at_) differs
    · exact ⟨level, bound, at_⟩
  · rintro ⟨level, bound, at_⟩
    exact typesAt_succ_subset bound at_

/-- Behind an empty level there is nothing. -/
theorem HierarchyStore.typesWithin_stable (empty : store.typesAt focus (depth + 1) = ∅) (below : depth ≤ other) :
    store.typesWithin focus other = store.typesWithin focus depth := by
  induction other, below using Nat.le_induction with
  | base => rfl
  | succ other below ih =>
    refine Finset.Subset.antisymm ?_ (typesWithin_mono (by omega))
    intro id member
    obtain ⟨near, bound, at_⟩ := mem_typesWithin_iff_typesAt.1 member
    by_cases shallow : near ≤ depth
    · exact typesAt_subset shallow at_
    · exfalso
      have deeper (further : Nat) : store.typesAt focus (depth + 1 + further) = ∅ := by
        induction further with
        | zero => exact empty
        | succ further ih =>
          refine Finset.eq_empty_of_forall_notMem fun next member => ?_
          obtain ⟨before, nearer, -⟩ := Breadth.At.pred (mem_typesAt.1 member)
          have none_ : before ∈ store.typesAt focus (depth + 1 + further) := mem_typesAt.2 nearer
          rw [ih] at none_
          cases none_
      have none_ := deeper (near - (depth + 1))
      rw [show depth + 1 + (near - (depth + 1)) = near by omega] at none_
      rw [none_] at at_
      cases at_

end Levels

end Codegraph.Graph
