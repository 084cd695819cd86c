import Codegraph.Graph.Descendants
import Mathlib.Algebra.GroupWithZero.Nat

/- This file shows what one level of the subtype walk adds. -/

namespace Codegraph.Graph
open Codegraph.Core Occurrences List

section Changes

variable {id target : String} {change : HierarchyEntry → HierarchyEntry} {entries : List HierarchyEntry}
  {overflow : List (String × Nat)} {edge : Edge} {entry : HierarchyEntry}

@[simp] theorem HierarchyEntry.upgrade_id : (entry.upgrade edge).id = entry.id := by
  simp only [HierarchyEntry.upgrade]
  split <;> rfl

@[simp] theorem HierarchyEntry.hide_id (count : Nat) : (entry.hide count).id = entry.id := rfl

/-- When the ids are distinct, the change reaches exactly the entry with the id. -/
theorem modifyEntry_eq_map (distinct : (entries.map HierarchyEntry.id).Nodup) :
    modifyEntry id change entries = entries.map fun entry => if entry.id = id then change entry else entry := by
  induction entries with
  | nil => rfl
  | cons entry rest ih =>
    rw [map_cons, nodup_cons] at distinct
    simp only [modifyEntry, map_cons]
    split
    · rename_i same
      have others : ∀ later ∈ rest, (if later.id = id then change later else later) = later := by
        intro later member
        refine if_neg fun equal => distinct.1 ?_
        rw [same, ← equal]
        exact mem_map_of_mem member
      rw [map_congr_left others, map_id']
    · rw [ih distinct.2]

/-- A change that keeps the ids leaves the list of ids as it is. -/
theorem modifyEntry_ids (keeps : ∀ entry, (change entry).id = entry.id) :
    (modifyEntry id change entries).map HierarchyEntry.id = entries.map HierarchyEntry.id := by
  induction entries with
  | nil => rfl
  | cons entry rest ih =>
    simp only [modifyEntry]
    split
    · rw [map_cons, map_cons, keeps]
    · rw [map_cons, map_cons, ih]

/-- The overflow under an id. -/
def overflowOf (overflow : List (String × Nat)) (id : String) : Nat :=
  ((overflow.filter fun hidden => hidden.1 = id).map Prod.snd).sum

@[simp] theorem overflowOf_nil : overflowOf [] id = 0 := rfl

theorem overflowOf_cons (hidden : String × Nat) : overflowOf (hidden :: overflow) id =
    (if hidden.1 = id then hidden.2 else 0) + overflowOf overflow id := by
  by_cases same : hidden.1 = id <;> simp [overflowOf, same]

theorem overflowOf_bump : overflowOf (bumpOverflow target overflow) id =
    overflowOf overflow id + if target = id then 1 else 0 := by
  induction overflow with
  | nil => by_cases same : target = id <;> simp [bumpOverflow, overflowOf_cons, same]
  | cons hidden rest ih =>
    simp only [bumpOverflow]
    split
    · rename_i found
      simp only [overflowOf_cons, found]
      split <;> omega
    · simp only [overflowOf_cons, ih]
      omega

theorem HierarchyEntry.hide_hide (first second : Nat) :
    (entry.hide first).hide second = entry.hide (first + second) := by
  simp only [HierarchyEntry.hide, Nat.add_assoc]

/-- Hiding the overflow adds to every entry what overflowed under its id. -/
theorem foldl_hide (distinct : (entries.map HierarchyEntry.id).Nodup) :
    overflow.foldl (fun entries hidden => modifyEntry hidden.1 (HierarchyEntry.hide hidden.2) entries) entries =
      entries.map fun entry => entry.hide (overflowOf overflow entry.id) := by
  induction overflow generalizing entries with
  | nil => exact (map_id' entries).symm
  | cons hidden rest ih =>
    have still : ((modifyEntry hidden.1 (HierarchyEntry.hide hidden.2) entries).map HierarchyEntry.id).Nodup := by
      rw [modifyEntry_ids fun entry => HierarchyEntry.hide_id hidden.2]
      exact distinct
    rw [foldl_cons, ih still, modifyEntry_eq_map distinct, map_map]
    refine map_congr_left fun entry _ => ?_
    simp only [Function.comp_apply, overflowOf_cons]
    by_cases same : entry.id = hidden.1
    · rw [if_pos same, if_pos same.symm, HierarchyEntry.hide_hide]
      rfl
    · rw [if_neg same, if_neg (Ne.symm same), Nat.zero_add]

end Changes

section Scan

variable {store : HierarchyStore} {nodes : String → Option Node} {seen : List String} {shown depth implementers : Nat}
  {fresh : List Edge} {scan : LevelScan} {edge : Edge} {entry : HierarchyEntry}

/-- A listed entry comes from the first edge of its subtype, and it implements when no edge of its subtype extends. -/
structure HierarchyEntry.Listed (fresh : List Edge) (depth : Nat) (entry : HierarchyEntry) : Prop where
  depth : entry.depth = depth
  shown : entry.hiddenSubtypes = 0
  parent : ∃ first, firstOf Edge.source fresh entry.id = some first ∧ entry.parentId = first.target
  edge : entry.edge ∈ fresh ∧ entry.edge.source = entry.id
  relation : entry.relation = .implements ↔ ∀ edge ∈ fresh, edge.source = entry.id → edge.kind ≠ .extends_

/-- The fresh edges that were scanned determine the level, the overflow and the counts. -/
structure LevelScan.Counts (shown depth implementers : Nat) (fresh : List Edge) (scan : LevelScan) : Prop where
  kinds : ∀ edge ∈ fresh, edge.kind ∈ typeKinds
  known : ∀ id, id ∈ scan.levelSeen ↔ id ∈ firsts Edge.source fresh
  level : scan.level.map HierarchyEntry.id = (firsts Edge.source fresh).take (maxDescendants - shown)
  overflow : ∀ id, overflowOf scan.overflow id = (((firsts Edge.source fresh).drop (maxDescendants - shown)).filter
    fun other => (firstOf Edge.source fresh other).map Edge.target = some id).length
  bounded : scan.bounded = decide (maxDescendants - shown < (firsts Edge.source fresh).length)
  implementers : scan.directImplementers = implementers + if depth = 1 then ((firsts Edge.source fresh).filter
    fun other => (firstOf Edge.source fresh other).any fun first => first.kind = .implements).length else 0
  listed : ∀ entry ∈ scan.level, entry.Listed fresh depth

theorem typeKind_cases {kind : EdgeKind} (listed : kind ∈ typeKinds) : kind = .extends_ ∨ kind = .implements := by
  simpa [typeKinds] using listed

/-- One more edge of a subtype keeps its entry listed, when an edge that extends upgrades it. -/
theorem HierarchyEntry.Listed.upgrade (held : entry.Listed fresh depth) (same : edge.source = entry.id) :
    (entry.upgrade edge).Listed (fresh ++ [edge]) depth := by
  obtain ⟨at_, shown, ⟨first, found, parent⟩, ⟨member, source⟩, relation⟩ := held
  have known : entry.id ∈ firsts Edge.source fresh := mem_firsts.mpr ⟨_, member, source⟩
  have still : ∃ first, firstOf Edge.source (fresh ++ [edge]) entry.id = some first ∧ entry.parentId = first.target :=
    ⟨first, (firstOf_concat known).trans found, parent⟩
  by_cases replaces : entry.relation = .implements ∧ edge.kind = .extends_
  · have upgraded : entry.upgrade edge =
        { entry with relation := .extends_, synthesized := isHeuristic edge, edge := edge } := if_pos replaces
    rw [upgraded]
    refine ⟨at_, shown, still, ⟨by simp, same⟩, ⟨fun implements => (by cases implements), fun never => ?_⟩⟩
    exact absurd replaces.2 (never edge (by simp) same)
  · have kept : entry.upgrade edge = entry := if_neg replaces
    rw [kept]
    refine ⟨at_, shown, still, ⟨mem_append_left _ member, source⟩, ?_⟩
    constructor
    · intro implements other among from_
      rcases mem_append.mp among with old | new
      · exact relation.mp implements other old from_
      · rw [mem_singleton.mp new]
        exact fun extends_ => replaces ⟨implements, extends_⟩
    · exact fun never => relation.mpr fun other old => never other (mem_append_left _ old)

/-- An edge of another subtype keeps an entry listed. -/
theorem HierarchyEntry.Listed.other (held : entry.Listed fresh depth) (differs : edge.source ≠ entry.id) :
    entry.Listed (fresh ++ [edge]) depth := by
  obtain ⟨at_, shown, ⟨first, found, parent⟩, ⟨member, source⟩, relation⟩ := held
  have known : entry.id ∈ firsts Edge.source fresh := mem_firsts.mpr ⟨_, member, source⟩
  refine ⟨at_, shown, ⟨first, (firstOf_concat known).trans found, parent⟩, ⟨mem_append_left _ member, source⟩, ?_⟩
  rw [relation]
  constructor
  · intro never other among from_
    rcases mem_append.mp among with old | new
    · exact never other old from_
    · rw [mem_singleton.mp new] at from_
      exact absurd from_ differs
  · exact fun never other old => never other (mem_append_left _ old)

/-- The entry of a new subtype is listed by its edge. -/
theorem toEntry_listed {node : Node} (same : node.id = edge.source) (kind : edge.kind ∈ typeKinds)
    (new : edge.source ∉ firsts Edge.source fresh) :
    (toEntry node depth edge.target edge).Listed (fresh ++ [edge]) depth := by
  refine ⟨rfl, rfl, ⟨edge, ?_, rfl⟩, ⟨by simp [toEntry], same.symm⟩, ?_⟩
  · rw [HierarchyEntry.id, toEntry, same]
    exact firstOf_concat_new new
  · have only : ∀ other ∈ fresh ++ [edge], other.source = node.id → other = edge := by
      intro other among from_
      rcases mem_append.mp among with old | last
      · exact absurd (mem_firsts.mpr ⟨other, old, from_.trans same⟩) new
      · exact mem_singleton.mp last
    simp only [toEntry, HierarchyRelation.of, HierarchyEntry.id]
    constructor
    · intro implements other among from_
      rw [only other among from_]
      intro extends_
      simp [extends_] at implements
    · intro never
      have kindOf := never edge (by simp) same.symm
      rcases typeKind_cases kind with extends_ | implements
      · exact absurd extends_ kindOf
      · simp [implements]

theorem LevelScan.Counts.start {directTotal : Nat} :
    LevelScan.Counts shown depth implementers [] ⟨[], [], [], directTotal, implementers, false⟩ := by
  refine ⟨fun _ none => (by cases none), by simp, by simp, by simp, by simp, by simp, fun _ none => (by cases none)⟩

section Direct

variable (depth scan edge)

@[simp] theorem LevelScan.countDirect_level : (scan.countDirect depth edge).level = scan.level := by
  simp only [LevelScan.countDirect]
  split <;> rfl

@[simp] theorem LevelScan.countDirect_overflow : (scan.countDirect depth edge).overflow = scan.overflow := by
  simp only [LevelScan.countDirect]
  split <;> rfl

@[simp] theorem LevelScan.countDirect_levelSeen : (scan.countDirect depth edge).levelSeen = scan.levelSeen := by
  simp only [LevelScan.countDirect]
  split <;> rfl

@[simp] theorem LevelScan.countDirect_bounded : (scan.countDirect depth edge).bounded = scan.bounded := by
  simp only [LevelScan.countDirect]
  split <;> rfl

theorem LevelScan.countDirect_implementers : (scan.countDirect depth edge).directImplementers =
    scan.directImplementers + if depth = 1 ∧ edge.kind = .implements then 1 else 0 := by
  simp only [LevelScan.countDirect]
  by_cases first : depth = 1
  · by_cases implements : edge.kind = .implements <;> simp [first, implements]
  · simp [first]

end Direct

section

variable (counts : scan.Counts shown depth implementers fresh)
include counts

theorem LevelScan.Counts.kinds_concat
    (kind : edge.kind ∈ typeKinds) : ∀ other ∈ fresh ++ [edge], other.kind ∈ typeKinds := by
  intro other member
  rcases mem_append.mp member with old | last
  · exact counts.kinds other old
  · exact mem_singleton.mp last ▸ kind

/-- The entries of the level keep being listed when an edge of a new subtype follows. -/
theorem LevelScan.Counts.listed_concat
    (new : edge.source ∉ firsts Edge.source fresh) : ∀ entry ∈ scan.level, entry.Listed (fresh ++ [edge]) depth := by
  intro entry member
  refine (counts.listed entry member).other fun equal => new ?_
  rw [equal]
  refine mem_of_mem_take (i := maxDescendants - shown) ?_
  rw [← counts.level]
  exact mem_map_of_mem member

/-- A new subtype of the first level counts as an implementer when its edge implements. -/
theorem LevelScan.Counts.implementers_concat (new : edge.source ∉ firsts Edge.source fresh) :
    (scan.countDirect depth edge).directImplementers = implementers + if depth = 1 then
      ((firsts Edge.source (fresh ++ [edge])).filter fun other =>
        (firstOf Edge.source (fresh ++ [edge]) other).any fun first => first.kind = .implements).length else 0 := by
  have old := filter_firstOf_concat edge (firsts Edge.source fresh)
    (fun first => first.any fun first : Edge => first.kind = .implements) (fun _ member => member)
  rw [firsts_concat, if_neg new, filter_append, old, length_append, LevelScan.countDirect_implementers,
    counts.implementers]
  simp only [filter_singleton, firstOf_concat_new new, Option.any_some]
  by_cases first : depth = 1
  · by_cases implements : edge.kind = .implements
    · simp [first, implements, Nat.add_assoc]
    · simp [first, implements]
  · simp [first]

/-- Past the room of the level, a new subtype overflows under the target of its edge. -/
theorem LevelScan.Counts.overflow_concat (new : edge.source ∉ firsts Edge.source fresh)
    (least : maxDescendants - shown ≤ (firsts Edge.source fresh).length) (id : String) :
    overflowOf (bumpOverflow edge.target scan.overflow) id =
      (((firsts Edge.source (fresh ++ [edge])).drop (maxDescendants - shown)).filter fun other =>
        (firstOf Edge.source (fresh ++ [edge]) other).map Edge.target = some id).length := by
  have old := filter_firstOf_concat edge ((firsts Edge.source fresh).drop (maxDescendants - shown))
    (fun first => first.map Edge.target = some id) (fun _ member => mem_of_mem_drop member)
  rw [overflowOf_bump, counts.overflow, firsts_concat, if_neg new, drop_append_of_le_length least,
    filter_append, old, length_append]
  by_cases target : edge.target = id <;> simp [firstOf_concat_new new, target]

/-- A new subtype joins the level while there is room, and the overflow afterwards. -/
theorem LevelScan.Counts.join {node : Node}
    (same : node.id = edge.source) (kind : edge.kind ∈ typeKinds) (new : edge.source ∉ firsts Edge.source fresh) :
    let counted := scan.countDirect depth edge
    (if shown + counted.level.length ≥ maxDescendants then
      { counted with
        bounded := true
        overflow := bumpOverflow edge.target counted.overflow
        levelSeen := node.id :: counted.levelSeen }
    else
      { counted with
        levelSeen := node.id :: counted.levelSeen
        level := counted.level ++ [toEntry node depth edge.target edge] }).Counts shown depth implementers
      (fresh ++ [edge]) := by
  have kinds := counts.kinds_concat kind
  have direct := counts.implementers_concat new
  have others := counts.listed_concat new
  have grown : firsts Edge.source (fresh ++ [edge]) = firsts Edge.source fresh ++ [edge.source] := by
    rw [firsts_concat, if_neg new]
  have known (id : String) : id ∈ node.id :: scan.levelSeen ↔ id ∈ firsts Edge.source (fresh ++ [edge]) := by
    rw [grown, mem_cons, mem_append, mem_singleton, counts.known, same, or_comm]
  have sizes : scan.level.length = min (maxDescendants - shown) (firsts Edge.source fresh).length := by
    rw [← length_map HierarchyEntry.id, counts.level, length_take]
  simp only [LevelScan.countDirect_level, LevelScan.countDirect_overflow, LevelScan.countDirect_levelSeen]
  split
  · rename_i full
    have least : maxDescendants - shown ≤ (firsts Edge.source fresh).length := by omega
    refine ⟨kinds, known, ?_, counts.overflow_concat new least, ?_, direct, others⟩
    · rw [grown, take_append_of_le_length least]
      exact counts.level
    · simp only [grown, length_append, length_singleton]
      exact (decide_eq_true (by omega)).symm
  · rename_i free
    have most : (firsts Edge.source fresh).length < maxDescendants - shown := by omega
    have whole : (firsts Edge.source fresh ++ [edge.source]).length ≤ maxDescendants - shown := by
      rw [length_append, length_singleton]
      exact most
    refine ⟨kinds, known, ?_, ?_, ?_, direct, ?_⟩
    · rw [grown, take_of_length_le whole, map_append, counts.level,
        take_of_length_le (Nat.le_of_lt most)]
      simp [toEntry, HierarchyEntry.id, same]
    · intro id
      rw [counts.overflow, grown, drop_of_length_le whole, drop_of_length_le (Nat.le_of_lt most)]
      rfl
    · simp only [LevelScan.countDirect_bounded, counts.bounded, grown]
      rw [decide_eq_false (by omega), decide_eq_false (by omega)]
    · intro entry member
      rcases mem_append.mp member with old | last
      · exact others entry old
      · rw [mem_singleton.mp last]
        exact toEntry_listed same kind new

/-- A known subtype keeps its place, and its entry may be upgraded. -/
theorem LevelScan.Counts.meet (kind : edge.kind ∈ typeKinds) (old : edge.source ∈ firsts Edge.source fresh) :
    { scan with level := modifyEntry edge.source (HierarchyEntry.upgrade edge) scan.level }.Counts shown depth
      implementers (fresh ++ [edge]) := by
  have kinds := counts.kinds_concat kind
  obtain ⟨-, known, level, overflow, bounded, direct, listed⟩ := counts
  have same : firsts Edge.source (fresh ++ [edge]) = firsts Edge.source fresh := by rw [firsts_concat, if_pos old]
  have distinct : (scan.level.map HierarchyEntry.id).Nodup := by
    rw [level]
    exact firsts_nodup.sublist (take_sublist _ _)
  refine ⟨kinds, ?_, ?_, ?_, ?_, ?_, ?_⟩
  · rw [same]
    exact known
  · rw [same, modifyEntry_ids fun _ => HierarchyEntry.upgrade_id]
    exact level
  · intro id
    rw [same, filter_firstOf_concat edge ((firsts Edge.source fresh).drop (maxDescendants - shown))
      (fun first => first.map Edge.target = some id) fun _ member => mem_of_mem_drop member]
    exact overflow id
  · rw [same]
    exact bounded
  · rw [same, filter_firstOf_concat edge (firsts Edge.source fresh)
      (fun first => first.any fun first : Edge => first.kind = .implements) fun _ member => member]
    exact direct
  · intro entry member
    rw [modifyEntry_eq_map distinct] at member
    obtain ⟨before, earlier, rfl⟩ := mem_map.mp member
    split
    · rename_i found
      exact (listed before earlier).upgrade found.symm
    · rename_i differs
      exact (listed before earlier).other (Ne.symm differs)

end

/-- Scanning an edge keeps the counts right. -/
theorem LevelScan.Counts.scanEdge {node : Node} (seen : List String)
    (counts : scan.Counts shown depth implementers fresh)
    (found : nodes edge.source = some node) (same : node.id = edge.source) (kind : edge.kind ∈ typeKinds) :
    (scan.scanEdge nodes seen shown depth edge).Counts shown depth implementers
      (if edge.source ∈ seen then fresh else fresh ++ [edge]) := by
  simp only [LevelScan.scanEdge, found, same]
  by_cases old : edge.source ∈ seen
  · rw [if_pos old, if_pos old]
    exact counts
  rw [if_neg old, if_neg old]
  by_cases known : edge.source ∈ scan.levelSeen
  · rw [if_pos known]
    exact counts.meet kind ((counts.known _).mp known)
  · rw [if_neg known]
    have joined := counts.join same kind fun listed => known ((counts.known _).mpr listed)
    rw [same] at joined
    exact joined

/-- A scanned level counts the edges whose subtypes were not seen before. -/
theorem scanLevel_counts (store : HierarchyStore) (walk : DescendantWalk) (depth : Nat) (edges : List Edge)
    (stored : ∀ edge ∈ edges, edge ∈ store.tables.edges ∧ edge.kind ∈ typeKinds) (open_ : walk.bounded = false) :
    (walk.scanLevel store depth edges).Counts walk.entries.length depth walk.directImplementers
      (edges.filter fun edge => edge.source ∉ walk.seen) := by
  have nodes : ∀ edge ∈ edges, ∃ node, store.tables.nodesByIds (edges.map Edge.source) edge.source = some node ∧
      node.id = edge.source := by
    intro edge listed
    obtain ⟨node, found⟩ := store.sourceStored edge (stored edge listed).1
    exact ⟨node, (GraphStore.nodesByIds_map listed).trans found, GraphStore.nodeById_id found⟩
  rw [DescendantWalk.scanLevel, open_]
  generalize store.tables.nodesByIds (edges.map Edge.source) = lookup at nodes
  induction edges using reverseRecOn with
  | nil => exact LevelScan.Counts.start
  | append_singleton edges edge ih =>
    have earlier := ih (fun other member => stored other (mem_append_left _ member))
      (fun other member => nodes other (mem_append_left _ member))
    obtain ⟨node, found, same⟩ := nodes edge (by simp)
    have next := earlier.scanEdge walk.seen found same (stored edge (by simp)).2
    rw [foldl_append, foldl_cons, foldl_nil, filter_append, filter_singleton]
    by_cases old : edge.source ∈ walk.seen
    · simpa [old] using next
    · simpa [old] using next

end Scan

section Level

variable {store : HierarchyStore} {focus : String} {depth : Nat} {walk : DescendantWalk}

/-- A placed entry lies on its level, its parent and the target of its edge on the level before, and it implements when
none of its edges to that level extends. -/
structure HierarchyEntry.Placed (store : HierarchyStore) (focus : String) (level : Nat) (entry : HierarchyEntry) :
    Prop where
  depth : entry.depth = level + 1
  at_ : entry.id ∈ store.typesAt focus (level + 1)
  parent : entry.parentId ∈ store.typesAt focus level
  target : entry.edge.target ∈ store.typesAt focus level
  relation : entry.relation = .implements ↔
    ∀ edge ∈ store.edgesInto (store.typesAt focus level), edge.source = entry.id → edge.kind ≠ .extends_

/-- The first listed edge of a type of the next level. -/
def HierarchyStore.firstEdge (store : HierarchyStore) (focus : String) (depth : Nat) (id : String) : Option Edge :=
  firstOf Edge.source ((store.listedInto (store.typesAt focus depth)).filter fun edge =>
    edge.source ∉ store.typesWithin focus depth) id

/-- The direct subtypes whose first listed edge implements. -/
def HierarchyStore.firstImplementers (store : HierarchyStore) (focus : String) : List String :=
  (store.nextListed focus 0).filter fun id => (store.firstEdge focus 0 id).any fun edge => edge.kind = .implements

/-- A walk is complete up to a depth when it holds all types up to it with nothing hidden. -/
structure DescendantWalk.Complete (store : HierarchyStore) (focus : String) (depth : Nat) (walk : DescendantWalk) :
    Prop where
  distinct : (walk.entries.map HierarchyEntry.id).Nodup
  shown : ∀ id, id ∈ walk.entries.map HierarchyEntry.id ↔ id ∈ store.subtypesWithin focus depth
  seen : ∀ id, id ∈ walk.seen ↔ id ∈ store.typesWithin focus depth
  frontier : walk.frontier.toFinset = store.typesAt focus depth
  placed : ∀ entry ∈ walk.entries, ∃ level < depth, entry.Placed store focus level
  unhidden : ∀ entry ∈ walk.entries, entry.hiddenSubtypes = 0
  open_ : walk.bounded = false
  fits : (store.subtypesWithin focus depth).card ≤ maxDescendants
  implementers : walk.directImplementers = if depth = 0 then 0 else (store.firstImplementers focus).length

theorem DescendantWalk.Complete.start (store : HierarchyStore) (focus : String) :
    DescendantWalk.Complete store focus 0 ⟨[], [focus], [focus], 0, 0, false⟩ := by
  refine ⟨nodup_nil, ?_, ?_, ?_, fun _ none => (by cases none), fun _ none => (by cases none), rfl, ?_, rfl⟩
  · simp [HierarchyStore.subtypesWithin_zero]
  · simp [HierarchyStore.typesWithin]
  · simp [HierarchyStore.typesAt]
  · simp [HierarchyStore.subtypesWithin_zero]

theorem DescendantWalk.Complete.size (complete : walk.Complete store focus depth) :
    walk.entries.length = (store.subtypesWithin focus depth).card := by
  rw [← length_map HierarchyEntry.id, ← toFinset_card_of_nodup complete.distinct]
  congr 1
  ext id
  rw [mem_toFinset, complete.shown]

/-- Scanning the next level counts the types of that level. -/
theorem DescendantWalk.Complete.scan (complete : walk.Complete store focus depth) :
    (walk.scanLevel store (depth + 1) (store.hierarchyEdges walk.frontier)).Counts
      (store.subtypesWithin focus depth).card (depth + 1) walk.directImplementers
      ((store.listedInto (store.typesAt focus depth)).filter fun edge =>
        edge.source ∉ store.typesWithin focus depth) := by
  rw [HierarchyStore.hierarchyEdges, complete.frontier, ← complete.size]
  have counts :=
    scanLevel_counts store walk (depth + 1) (store.listedInto (store.typesAt focus depth)) ?_ complete.open_
  · simpa only [complete.seen] using counts
  · intro edge listed
    obtain ⟨stored, -, kind⟩ := HierarchyStore.mem_edgesInto.mp (HierarchyStore.mem_listedInto.mp listed)
    exact ⟨stored, kind⟩

/-- An entry that was listed at a level is placed there. -/
theorem HierarchyEntry.Listed.placed {entry : HierarchyEntry}
    (listed : entry.Listed ((store.listedInto (store.typesAt focus depth)).filter fun edge =>
      edge.source ∉ store.typesWithin focus depth) (depth + 1)) : entry.Placed store focus depth := by
  have among {edge : Edge} : edge ∈ (store.listedInto (store.typesAt focus depth)).filter (fun edge =>
      edge.source ∉ store.typesWithin focus depth) ↔
        edge ∈ store.edgesInto (store.typesAt focus depth) ∧ edge.source ∉ store.typesWithin focus depth := by
    simp only [mem_filter, decide_eq_true_eq, HierarchyStore.mem_listedInto]
  obtain ⟨at_, -, ⟨first, found, parent⟩, ⟨member, source⟩, relation⟩ := listed
  obtain ⟨into, far⟩ := among.mp member
  refine ⟨at_, HierarchyStore.mem_next_level.mpr ⟨source ▸ far, _, into, source⟩, ?_,
    (HierarchyStore.mem_edgesInto.mp into).2.1, ?_⟩
  · rw [parent]
    exact (HierarchyStore.mem_edgesInto.mp (among.mp (firstOf_some found).1).1).2.1
  · rw [relation]
    constructor
    · exact fun never edge into_ same => never edge (among.mpr ⟨into_, by rw [same, ← source]; exact far⟩) same
    · exact fun never edge listed same => never edge (among.mp listed).1 same

/-- After the next level settled, what found room is shown, and the rest is hidden under its first edge's target. -/
structure DescendantWalk.Settled (store : HierarchyStore) (focus : String) (depth : Nat) (walk : DescendantWalk) :
    Prop where
  distinct : (walk.entries.map HierarchyEntry.id).Nodup
  shown : ∀ id, id ∈ walk.entries.map HierarchyEntry.id ↔
    id ∈ store.subtypesWithin focus depth ∨ id ∈ store.roomy focus depth
  seen : ∀ id, id ∈ walk.seen ↔ id ∈ store.typesWithin focus depth ∨ id ∈ store.roomy focus depth
  placed : ∀ entry ∈ walk.entries, ∃ level < depth + 1, entry.Placed store focus level
  hidden : ∀ entry ∈ walk.entries, entry.hiddenSubtypes = ((store.crowded focus depth).filter fun other =>
    (store.firstEdge focus depth other).map Edge.target = some entry.id).length
  bounded : walk.bounded = !(store.crowded focus depth).isEmpty
  implementers : walk.directImplementers = (store.firstImplementers focus).length

theorem HierarchyEntry.Placed.hide {entry : HierarchyEntry} {level : Nat} (placed : entry.Placed store focus level)
    (count : Nat) : (entry.hide count).Placed store focus level :=
  ⟨placed.depth, placed.at_, placed.parent, placed.target, placed.relation⟩

theorem HierarchyStore.roomy_subset {id : String} (roomy : id ∈ store.roomy focus depth) :
    id ∈ store.typesAt focus (depth + 1) := mem_nextListed.mp (mem_of_mem_take roomy)

theorem HierarchyStore.crowded_subset {id : String} (crowded : id ∈ store.crowded focus depth) :
    id ∈ store.typesAt focus (depth + 1) := mem_nextListed.mp (mem_of_mem_drop crowded)

/-- A level that is scanned from a complete one is settled. -/
theorem DescendantWalk.Complete.settle (complete : walk.Complete store focus depth) (toLowercase : String → String) :
    (walk.settle toLowercase (walk.scanLevel store (depth + 1) (store.hierarchyEdges walk.frontier))).Settled store
      focus
      depth := by
  have counts := complete.scan
  generalize walk.scanLevel store (depth + 1) (store.hierarchyEdges walk.frontier) = scan at counts
  obtain ⟨-, -, level, overflow, bounded, direct, listed⟩ := counts
  have sorted : (sortLevel toLowercase scan.level).Perm scan.level := perm_insertionSort _ _
  have roomyIds (id : String) : id ∈ (sortLevel toLowercase scan.level).map HierarchyEntry.id ↔
      id ∈ store.roomy focus depth := by
    rw [(sorted.map HierarchyEntry.id).mem_iff, level]
    exact Iff.rfl
  have distinct : ((walk.entries ++ sortLevel toLowercase scan.level).map HierarchyEntry.id).Nodup := by
    rw [map_append, nodup_append]
    refine ⟨complete.distinct, ?_, ?_⟩
    · rw [(sorted.map HierarchyEntry.id).nodup_iff, level]
      exact firsts_nodup.sublist (take_sublist _ _)
    · rintro id old other new rfl
      have within := Finset.mem_of_mem_erase ((complete.shown id).mp old)
      exact (Finset.mem_sdiff.mp (HierarchyStore.roomy_subset ((roomyIds id).mp new))).2 within
  have entries : (walk.settle toLowercase scan).entries = (walk.entries ++ sortLevel toLowercase scan.level).map
      fun entry => entry.hide (overflowOf scan.overflow entry.id) := foldl_hide distinct
  have ids : (walk.settle toLowercase scan).entries.map HierarchyEntry.id =
      (walk.entries ++ sortLevel toLowercase scan.level).map HierarchyEntry.id := by
    rw [entries, map_map]
    rfl
  refine ⟨ids ▸ distinct, fun id => ?_, fun id => ?_, fun entry member => ?_, fun entry member => ?_, ?_, ?_⟩
  · rw [ids, map_append, mem_append, complete.shown, roomyIds]
  · change id ∈ scan.level.map HierarchyEntry.id ++ walk.seen ↔ _
    rw [mem_append, complete.seen, level, or_comm]
    exact Iff.rfl
  · rw [entries] at member
    obtain ⟨before, among, rfl⟩ := mem_map.mp member
    rcases mem_append.mp among with old | new
    · obtain ⟨level, below, placed⟩ := complete.placed before old
      exact ⟨level, by omega, placed.hide _⟩
    · exact ⟨depth, Nat.lt_succ_self depth, ((listed before (sorted.mem_iff.mp new)).placed).hide _⟩
  · rw [entries] at member
    obtain ⟨before, among, rfl⟩ := mem_map.mp member
    have unhidden : before.hiddenSubtypes = 0 := by
      rcases mem_append.mp among with old | new
      · exact complete.unhidden before old
      · exact (listed before (sorted.mem_iff.mp new)).shown
    simp only [HierarchyEntry.hide, unhidden, Nat.zero_add, overflow]
    rfl
  · change scan.bounded = _
    have crowd : (store.crowded focus depth).length =
        (store.nextListed focus depth).length - (maxDescendants - (store.subtypesWithin focus depth).card) :=
      length_drop
    rw [bounded, ← HierarchyStore.nextListed]
    rcases none_ : store.crowded focus depth with _ | ⟨first, rest⟩
    · rw [none_, length_nil] at crowd
      exact decide_eq_false (by omega)
    · rw [none_, length_cons] at crowd
      exact decide_eq_true (by omega)
  · change scan.directImplementers = _
    rw [direct, complete.implementers]
    rcases depth with _ | depth
    · simp only [if_true, Nat.zero_add]
      rfl
    · simp

/-- The frontier holds the types of the deepest level. -/
theorem frontier_of_placed {entries : List HierarchyEntry}
    (shown : ∀ id, id ∈ entries.map HierarchyEntry.id ↔ id ∈ store.subtypesWithin focus (depth + 1))
    (placed : ∀ entry ∈ entries, ∃ level < depth + 1, entry.Placed store focus level) :
    ((entries.filter fun entry => entry.depth = depth + 1).map HierarchyEntry.id).toFinset =
      store.typesAt focus (depth + 1) := by
  ext id
  simp only [mem_toFinset, mem_map, mem_filter, decide_eq_true_eq]
  constructor
  · rintro ⟨entry, ⟨member, deep⟩, rfl⟩
    obtain ⟨level, -, held⟩ := placed entry member
    obtain rfl : level = depth := by
      have same := held.depth
      omega
    exact held.at_
  · intro at_
    obtain ⟨entry, member, same⟩ := mem_map.mp
      ((shown id).mpr (HierarchyStore.typesAt_succ_subset (Nat.lt_succ_self depth) at_))
    obtain ⟨level, -, held⟩ := placed entry member
    have level_ := HierarchyStore.typesAt_unique held.at_ (same ▸ at_)
    exact ⟨entry, ⟨member, held.depth.trans level_⟩, same⟩

/-- When nothing overflowed, the walk is complete one level further. -/
theorem DescendantWalk.Settled.complete (settled : walk.Settled store focus depth) (open_ : walk.bounded = false)
    (fits : (store.subtypesWithin focus depth).card ≤ maxDescendants) :
    DescendantWalk.Complete store focus (depth + 1) { walk with
      frontier := (walk.entries.filter fun entry => entry.depth = depth + 1).map HierarchyEntry.id } := by
  have none_ : store.crowded focus depth = [] := by
    have bounded := settled.bounded
    rw [open_] at bounded
    simpa using bounded.symm
  have least : (store.nextListed focus depth).length ≤ maxDescendants - (store.subtypesWithin focus depth).card :=
    drop_eq_nil_iff.mp none_
  have all (id : String) : id ∈ store.roomy focus depth ↔ id ∈ store.typesAt focus (depth + 1) := by
    rw [HierarchyStore.roomy, take_of_length_le least, HierarchyStore.mem_nextListed]
  have shown (id : String) : id ∈ walk.entries.map HierarchyEntry.id ↔ id ∈ store.subtypesWithin focus (depth + 1) := by
    rw [settled.shown, all, HierarchyStore.subtypesWithin_succ, Finset.mem_union]
  refine ⟨settled.distinct, shown, fun id => ?_, frontier_of_placed shown settled.placed, settled.placed,
    fun entry member => ?_, open_, ?_, settled.implementers⟩
  · rw [settled.seen, all]
    constructor
    · rintro (near | next)
      · exact HierarchyStore.typesWithin_mono (Nat.le_succ depth) near
      · exact HierarchyStore.typesAt_subset le_rfl next
    · intro within
      by_cases near : id ∈ store.typesWithin focus depth
      · exact .inl near
      · exact .inr (Finset.mem_sdiff.mpr ⟨within, near⟩)
  · rw [settled.hidden entry member, none_]
    rfl
  · rw [HierarchyStore.card_subtypesWithin_succ]
    omega

theorem DescendantWalk.Settled.overfull (settled : walk.Settled store focus depth) (bounded : walk.bounded = true)
    (fits : (store.subtypesWithin focus depth).card ≤ maxDescendants) (shallow : depth < maxDescendantDepth) :
    store.Overfull focus depth := by
  refine ⟨shallow, fits, ?_⟩
  rw [HierarchyStore.card_subtypesWithin_succ]
  have some_ := settled.bounded
  rw [bounded] at some_
  by_contra short
  have none_ : store.crowded focus depth = [] := drop_eq_nil_iff.mpr (by omega)
  rw [none_] at some_
  cases some_

/-- The edges from types that were not seen into one type. -/
def unseenInto (seen : List String) (edges : List Edge) (id : String) : Nat :=
  (edges.filter fun edge => edge.source ∉ seen ∧ edge.target = id).length

/-- Counting hides the edges from nodes that were not seen. -/
theorem countDeeper_eq (edges : List Edge) (distinct : (walk.entries.map HierarchyEntry.id).Nodup) :
    walk.countDeeper edges = { walk with
      bounded := walk.bounded || edges.any fun edge => edge.source ∉ walk.seen
      entries := walk.entries.map fun entry => entry.hide (unseenInto walk.seen edges entry.id) } := by
  induction edges using reverseRecOn with
  | nil =>
    have unchanged : walk.entries.map (fun entry => entry.hide (unseenInto walk.seen [] entry.id)) = walk.entries :=
      map_id' walk.entries
    simp [DescendantWalk.countDeeper, unchanged]
  | append_singleton edges edge ih =>
    rw [DescendantWalk.countDeeper] at ih
    rw [DescendantWalk.countDeeper, foldl_append, foldl_cons, foldl_nil, ih]
    by_cases known : edge.source ∈ walk.seen
    · simp [known, unseenInto]
    · have still : ((walk.entries.map fun entry =>
          entry.hide (unseenInto walk.seen edges entry.id)).map HierarchyEntry.id).Nodup := by
        rw [map_map]
        exact distinct
      simp only [known, if_false, modifyEntry_eq_map still, map_map, any_append, any_cons,
        any_nil, not_false_eq_true, decide_true, Bool.or_true, Bool.or_false]
      congr 1
      refine map_congr_left fun entry _ => ?_
      by_cases same : edge.target = entry.id
      · simp [unseenInto, known, same, HierarchyEntry.hide_hide]
      · simp [unseenInto, known, same, Ne.symm same]

end Level

end Codegraph.Graph
