import Codegraph.Graph.DescendantLevels

/- This file shows exactly when the subtype walk counts what it promises. -/

namespace Codegraph.Graph
open Codegraph.Core Occurrences List

section Run

variable {store : HierarchyStore} {focus : String} {depth : Nat} {walk : DescendantWalk}

/-- The type edges into the deepest level from types that lie deeper. -/
def HierarchyStore.deeperEdges (store : HierarchyStore) (focus : String) : List Edge :=
  (store.edgesInto (store.typesAt focus maxDescendantDepth)).filter fun edge =>
    edge.source ∉ store.typesWithin focus maxDescendantDepth

/-- A finished walk shows every type down to the deepest level, and it hides every deeper edge under its target. -/
structure DescendantWalk.Finished (store : HierarchyStore) (focus : String) (walk : DescendantWalk) : Prop where
  distinct : (walk.entries.map HierarchyEntry.id).Nodup
  shown : ∀ id, id ∈ walk.entries.map HierarchyEntry.id ↔ id ∈ store.subtypesWithin focus maxDescendantDepth
  placed : ∀ entry ∈ walk.entries, ∃ level < maxDescendantDepth, entry.Placed store focus level
  hidden : ∀ entry ∈ walk.entries, entry.hiddenSubtypes =
    ((store.deeperEdges focus).filter fun edge => edge.target = entry.id).length
  bounded : walk.bounded = !(store.deeperEdges focus).isEmpty
  fits : (store.subtypesWithin focus maxDescendantDepth).card ≤ maxDescendants
  implementers : walk.directImplementers = (store.firstImplementers focus).length

theorem HierarchyStore.mem_deeperEdges {edge : Edge} : edge ∈ store.deeperEdges focus ↔
    edge ∈ store.edgesInto (store.typesAt focus maxDescendantDepth) ∧
      edge.source ∉ store.typesWithin focus maxDescendantDepth := by
  simp only [deeperEdges, mem_filter, decide_eq_true_eq]

/-- Behind an empty level the walk is finished. -/
theorem DescendantWalk.Complete.finished (complete : walk.Complete store focus depth)
    (empty : store.typesAt focus (depth + 1) = ∅) (below : depth ≤ maxDescendantDepth) : walk.Finished store focus := by
  have stable {other : Nat} (further : depth ≤ other) := HierarchyStore.typesWithin_stable empty further
  have same : store.subtypesWithin focus maxDescendantDepth = store.subtypesWithin focus depth := by
    rw [HierarchyStore.subtypesWithin, stable below, HierarchyStore.subtypesWithin]
  have none_ : store.deeperEdges focus = [] := by
    refine eq_nil_iff_forall_not_mem.mpr fun edge member => ?_
    obtain ⟨into, far⟩ := HierarchyStore.mem_deeperEdges.mp member
    have next := HierarchyStore.mem_next_level.mpr ⟨far, edge, into, rfl⟩
    have within := HierarchyStore.typesAt_subset le_rfl next
    rw [stable (Nat.le_succ_of_le below), ← stable below] at within
    exact far within
  refine ⟨complete.distinct, fun id => by rw [complete.shown, same], fun entry member => ?_, fun entry member => ?_, ?_,
    same ▸ complete.fits, ?_⟩
  · obtain ⟨level, early, placed⟩ := complete.placed entry member
    exact ⟨level, by omega, placed⟩
  · rw [complete.unhidden entry member, none_]
    rfl
  · rw [complete.open_, none_]
    rfl
  · rw [complete.implementers]
    rcases depth with _ | depth
    · have listed : store.nextListed focus 0 = [] := by
        apply eq_nil_of_length_eq_zero
        rw [HierarchyStore.nextListed_length, empty, Finset.card_empty]
      simp [HierarchyStore.firstImplementers, listed]
    · rfl

/-- Counting below the deepest level finishes a walk that is complete down to it. -/
theorem DescendantWalk.Complete.deepest (complete : walk.Complete store focus depth)
    (last : depth = maxDescendantDepth) :
    (walk.countDeeper (store.hierarchyEdges walk.frontier)).Finished store focus := by
  subst last
  have listed : (store.hierarchyEdges walk.frontier).Perm
    (store.edgesInto (store.typesAt focus maxDescendantDepth)) := by
    rw [HierarchyStore.hierarchyEdges, complete.frontier]
    exact store.listedAll _
  have unseen (edge : Edge) : edge.source ∉ walk.seen ↔ edge.source ∉ store.typesWithin focus maxDescendantDepth :=
    not_congr (complete.seen edge.source)
  rw [countDeeper_eq _ complete.distinct]
  refine ⟨?_, fun id => ?_, fun entry member => ?_, fun entry member => ?_, ?_, complete.fits, complete.implementers⟩
  · rw [map_map]
    exact complete.distinct
  · rw [map_map]
    exact complete.shown id
  · obtain ⟨before, among, rfl⟩ := mem_map.mp member
    obtain ⟨level, early, placed⟩ := complete.placed before among
    exact ⟨level, early, placed.hide _⟩
  · obtain ⟨before, among, rfl⟩ := mem_map.mp member
    have none_ := complete.unhidden before among
    change before.hiddenSubtypes + _ = ((store.deeperEdges focus).filter fun edge => edge.target = before.id).length
    rw [none_, Nat.zero_add, unseenInto, (listed.filter _).length_eq, HierarchyStore.deeperEdges, filter_filter]
    congr 1
    refine filter_congr fun edge _ => ?_
    rw [Bool.eq_iff_iff]
    simp only [unseen, decide_eq_true_eq, Bool.and_eq_true]
    exact and_comm
  · simp only [complete.open_, Bool.false_or]
    rw [Bool.eq_iff_iff]
    simp only [any_eq_true, decide_eq_true_eq, unseen, Bool.not_eq_true', isEmpty_eq_false_iff_exists_mem,
      HierarchyStore.mem_deeperEdges, listed.mem_iff]

/-- A run stops at an overfull level, or it finishes. -/
theorem DescendantWalk.Complete.run (toLowercase : String → String) (left : Nat)
    (complete : walk.Complete store focus depth) (levels : left + depth = maxDescendantDepth)
    (shallow : depth < maxDescendantDepth) : (∃ level, store.Overfull focus level ∧
      (DescendantWalk.run store toLowercase left (depth + 1) walk).Settled store focus level) ∨
    (DescendantWalk.run store toLowercase left (depth + 1) walk).Finished store focus := by
  induction left generalizing depth walk with
  | zero => omega
  | succ left ih =>
    simp only [DescendantWalk.run]
    split
    · rename_i stopped
      refine .inr (complete.finished (HierarchyStore.next_level_empty ?_) shallow.le)
      rw [← complete.frontier, isEmpty_iff.mp stopped]
      exact HierarchyStore.edgesInto_empty
    split
    · rename_i stopped
      refine .inr (complete.finished (HierarchyStore.next_level_empty ?_) shallow.le)
      rw [HierarchyStore.hierarchyEdges, complete.frontier, List.isEmpty_iff] at stopped
      exact nil_perm.mp (stopped ▸ store.listedAll (store.typesAt focus depth))
    have settled := complete.settle toLowercase
    generalize walk.settle toLowercase (walk.scanLevel store (depth + 1) (store.hierarchyEdges walk.frontier)) =
      next at settled ⊢
    split
    · rename_i bounded
      exact .inl ⟨depth, settled.overfull bounded complete.fits shallow, settled⟩
    rename_i open_
    have further := settled.complete (by simpa using open_) complete.fits
    by_cases last : depth + 1 = maxDescendantDepth
    · obtain rfl : left = 0 := by omega
      simp only [DescendantWalk.run]
      split
      · rename_i deepest
        exact .inr (further.deepest last)
      · rename_i empty
        refine .inr (further.finished (HierarchyStore.next_level_empty ?_) last.le)
        simp only [last, true_and, Bool.not_eq_true', Bool.not_eq_false, List.isEmpty_iff] at empty
        have none_ : store.typesAt focus (depth + 1) = ∅ := by
          rw [← further.frontier]
          simp only [last, empty]
          rfl
        rw [none_]
        exact HierarchyStore.edgesInto_empty
    · rw [if_neg fun deepest => last deepest.1]
      exact ih further (by omega) (by omega)

end Run

section Counts

variable {store : HierarchyStore} {focus : String} {depth : Nat} {entries : List HierarchyEntry}
  {entry : HierarchyEntry}

/-- A place is one step nearer than an entry when it is the focus above the first level, or an entry of the level
above. -/
def Nearer (focus : String) (entries : List HierarchyEntry) (entry : HierarchyEntry) (place : String) : Prop :=
  place = focus ∧ entry.depth = 1 ∨ ∃ other ∈ entries, other.id = place ∧ other.depth + 1 = entry.depth

def entryIds (entries : List HierarchyEntry) : Finset String := (entries.map HierarchyEntry.id).toFinset

def isDirectImplementer (entry : HierarchyEntry) : Bool := entry.depth = 1 && entry.relation = .implements

/-- The entries are distinct and lie at their distances, and the counts are those of the relation. -/
structure Down.Right (store : HierarchyStore) (focus : String) (down : Down) : Prop where
  distinct : (down.entries.map HierarchyEntry.id).Nodup
  apart : ∀ entry ∈ down.entries, entry.id ≠ focus
  depths : ∀ entry ∈ down.entries, Breadth.At store.subtypeStep {focus} entry.depth entry.id
  parents : ∀ entry ∈ down.entries,
    Nearer focus down.entries entry entry.parentId ∧ Nearer focus down.entries entry entry.edge.target
  implementers : down.bounded = false → down.directImplementers = (down.entries.filter isDirectImplementer).length
  hidden : ∀ entry ∈ down.entries,
    entry.hiddenSubtypes = (store.subtypesOf {entry.id} \ entryIds down.entries).card

/-- A type is kept at an overfull level when it lies above the level, or it is on it and finds room. -/
def HierarchyStore.Keeps (store : HierarchyStore) (focus : String) (depth : Nat) (id : String) : Prop :=
  id ∈ store.subtypesWithin focus depth ∨ id ∈ store.roomy focus depth

/-- The counts are exact under three conditions. When every type is shown, no direct subtype that is listed as an
implementer also extends the focus. At an overfull level, every subtype of a kept type is kept, or it is crowded out and
its first listed edge leads to that type. Otherwise as many edges lead into a shown type from below the deepest level as
it has subtypes that are not shown. -/
structure HierarchyStore.CountsExactly (store : HierarchyStore) (focus : String) : Prop where
  implementers : (∀ depth, ¬ store.Overfull focus depth) → store.deeperEdges focus = [] →
    ∀ id ∈ store.firstImplementers focus, ∀ edge ∈ store.edgesInto {focus}, edge.source = id → edge.kind ≠ .extends_
  crowded : ∀ depth, store.Overfull focus depth → ∀ id, store.Keeps focus depth id →
    ∀ sub ∈ store.subtypesOf {id}, store.Keeps focus depth sub ∨
      sub ∈ store.crowded focus depth ∧ (store.firstEdge focus depth sub).map Edge.target = some id
  deeper : (∀ depth, ¬ store.Overfull focus depth) → ∀ id ∈ store.subtypesWithin focus maxDescendantDepth,
    ((store.edgesInto {id}).filter fun edge => edge.source ∉ store.typesWithin focus maxDescendantDepth).length =
      (store.subtypesOf {id} \ store.subtypesWithin focus maxDescendantDepth).card

/-- The entries of a result are distinct and placed, and the upper levels are shown whole. -/
structure Shows (store : HierarchyStore) (focus : String) (depth : Nat) (entries : List HierarchyEntry) : Prop where
  distinct : (entries.map HierarchyEntry.id).Nodup
  upper : ∀ id ∈ store.subtypesWithin focus depth, id ∈ entries.map HierarchyEntry.id
  placed : ∀ entry ∈ entries, ∃ level < depth + 1, entry.Placed store focus level

section

variable (shows : Shows store focus depth entries)
include shows

theorem Shows.apart (member : entry ∈ entries) : entry.id ≠ focus := by
  obtain ⟨level, -, placed⟩ := shows.placed entry member
  intro same
  exact (Finset.mem_sdiff.mp placed.at_).2 (same ▸ HierarchyStore.focus_within)

theorem Shows.depths (member : entry ∈ entries) : Breadth.At store.subtypeStep {focus} entry.depth entry.id := by
  obtain ⟨level, -, placed⟩ := shows.placed entry member
  rw [placed.depth]
  exact HierarchyStore.mem_typesAt.mp placed.at_

/-- What lies on the level before an entry is one step nearer. -/
theorem Shows.nearer {level : Nat} (below : level < depth + 1)
    (placed : entry.Placed store focus level) {place : String} (at_ : place ∈ store.typesAt focus level) :
    Nearer focus entries entry place := by
  rcases level with _ | level
  · exact .inl ⟨Finset.mem_singleton.mp at_, placed.depth⟩
  · obtain ⟨other, among, same⟩ := mem_map.mp
      (shows.upper place (HierarchyStore.typesAt_succ_subset (by omega) at_))
    obtain ⟨otherLevel, -, otherPlaced⟩ := shows.placed other among
    have equal := HierarchyStore.typesAt_unique otherPlaced.at_ (same ▸ at_)
    refine .inr ⟨other, among, same, ?_⟩
    rw [otherPlaced.depth, placed.depth, equal]

theorem Shows.parents (member : entry ∈ entries) :
    Nearer focus entries entry entry.parentId ∧ Nearer focus entries entry entry.edge.target := by
  obtain ⟨level, below, placed⟩ := shows.placed entry member
  exact ⟨shows.nearer below placed placed.parent, shows.nearer below placed placed.target⟩

/-- The direct implementers by their first listed edges are the entries that implement, when none of them also
extends. -/
theorem Shows.implementers (deep : 0 < depth) :
    (store.firstImplementers focus).length = (entries.filter isDirectImplementer).length ↔
      ∀ id ∈ store.firstImplementers focus, ∀ edge ∈ store.edgesInto {focus}, edge.source = id →
        edge.kind ≠ .extends_ := by
  have reported (id : String) : id ∈ (entries.filter isDirectImplementer).map HierarchyEntry.id ↔
      id ∈ store.typesAt focus 1 ∧ ∀ edge ∈ store.edgesInto {focus}, edge.source = id → edge.kind ≠ .extends_ := by
    simp only [mem_map, mem_filter, isDirectImplementer, Bool.and_eq_true, decide_eq_true_eq]
    constructor
    · rintro ⟨entry, ⟨member, direct, implements⟩, rfl⟩
      obtain ⟨level, -, placed⟩ := shows.placed entry member
      obtain rfl : level = 0 := by
        have same := placed.depth
        omega
      exact ⟨placed.at_, placed.relation.mp implements⟩
    · rintro ⟨at_, never⟩
      obtain ⟨entry, member, rfl⟩ := mem_map.mp (shows.upper id (HierarchyStore.typesAt_succ_subset deep at_))
      obtain ⟨level, -, placed⟩ := shows.placed entry member
      obtain rfl : level = 0 := by
        have same := HierarchyStore.typesAt_unique placed.at_ at_
        omega
      exact ⟨entry, ⟨member, placed.depth, placed.relation.mpr never⟩, rfl⟩
  have first (id : String) : id ∈ store.firstImplementers focus ↔ id ∈ store.typesAt focus 1 ∧
      ∃ edge, store.firstEdge focus 0 id = some edge ∧ edge.kind = .implements := by
    rw [HierarchyStore.firstImplementers, mem_filter, HierarchyStore.mem_nextListed, Option.any_eq_true]
    simp only [decide_eq_true_eq]
  have listed {id : String} {edge : Edge} (found : store.firstEdge focus 0 id = some edge) :
      edge ∈ store.edgesInto {focus} ∧ edge.source = id := by
    obtain ⟨member, same⟩ := firstOf_some found
    exact ⟨HierarchyStore.mem_listedInto.mp (mem_of_mem_filter member), same⟩
  have distinctFirst : (store.firstImplementers focus).Nodup := firsts_nodup.filter _
  have distinct : ((entries.filter isDirectImplementer).map HierarchyEntry.id).Nodup :=
    shows.distinct.sublist (filter_sublist.map _)
  have subset : (entries.filter isDirectImplementer).map HierarchyEntry.id ⊆ store.firstImplementers focus := by
    intro id member
    obtain ⟨at_, never⟩ := (reported id).mp member
    have known : id ∈ store.nextListed focus 0 := HierarchyStore.mem_nextListed.mpr at_
    obtain ⟨edge, found⟩ := firstOf_isSome known
    have into := (listed found).1
    refine (first id).mpr ⟨at_, edge, found, ?_⟩
    rcases typeKind_cases (HierarchyStore.mem_edgesInto.mp into).2.2 with extends_ | implements
    · exact absurd extends_ (never edge into (listed found).2)
    · exact implements
  have subperm := subperm_of_subset distinct subset
  rw [← length_map HierarchyEntry.id]
  constructor
  · intro same id member
    have perm := subperm.perm_of_length_le same.le
    exact ((reported id).mp (perm.mem_iff.mpr member)).2
  · intro never
    have back : store.firstImplementers focus ⊆ (entries.filter isDirectImplementer).map HierarchyEntry.id :=
      fun id member => (reported id).mpr ⟨((first id).mp member).1, never id member⟩
    exact Nat.le_antisymm (subperm_of_subset distinctFirst back).length_le subperm.length_le

end

variable {walk : DescendantWalk}

theorem mem_entryIds {id : String} : id ∈ entryIds entries ↔ id ∈ entries.map HierarchyEntry.id := by
  rw [entryIds, mem_toFinset]

theorem DescendantWalk.Settled.shows (settled : walk.Settled store focus depth) :
    Shows store focus depth walk.entries :=
  ⟨settled.distinct, fun id upper => (settled.shown id).mpr (.inl upper), settled.placed⟩

/-- A crowded type is not kept. -/
theorem HierarchyStore.crowded_not_kept {id : String} (crowded : id ∈ store.crowded focus depth) :
    ¬ store.Keeps focus depth id := by
  rintro (upper | roomy)
  · exact (Finset.mem_sdiff.mp (crowded_subset crowded)).2 (Finset.mem_of_mem_erase upper)
  · have distinct : (store.nextListed focus depth).Nodup := firsts_nodup
    exact disjoint_take_drop distinct le_rfl roomy crowded

/-- At an overfull level the count of an entry is exact when its subtypes are kept, or crowded out under it. -/
theorem DescendantWalk.Settled.hidden_iff (settled : walk.Settled store focus depth) (member : entry ∈ walk.entries) :
    entry.hiddenSubtypes = (store.subtypesOf {entry.id} \ entryIds walk.entries).card ↔
      ∀ sub ∈ store.subtypesOf {entry.id}, store.Keeps focus depth sub ∨
        sub ∈ store.crowded focus depth ∧ (store.firstEdge focus depth sub).map Edge.target = some entry.id := by
  have kept (id : String) : id ∈ entryIds walk.entries ↔ store.Keeps focus depth id :=
    mem_entryIds.trans (settled.shown id)
  have distinct : (store.crowded focus depth).Nodup := firsts_nodup.sublist (drop_sublist _ _)
  let counted := ((store.crowded focus depth).filter fun other =>
    (store.firstEdge focus depth other).map Edge.target = some entry.id).toFinset
  have mem_counted (id : String) : id ∈ counted ↔ id ∈ store.crowded focus depth ∧
      (store.firstEdge focus depth id).map Edge.target = some entry.id := by
    simp only [counted, mem_toFinset, mem_filter, decide_eq_true_eq]
  have subset : counted ⊆ store.subtypesOf {entry.id} \ entryIds walk.entries := by
    intro id member
    obtain ⟨crowded, first⟩ := (mem_counted id).mp member
    obtain ⟨edge, found, target⟩ := Option.map_eq_some_iff.mp first
    obtain ⟨among, source⟩ := firstOf_some found
    obtain ⟨stored, -, kind⟩ := HierarchyStore.mem_edgesInto.mp
      (HierarchyStore.mem_listedInto.mp (mem_of_mem_filter among))
    refine Finset.mem_sdiff.mpr ⟨HierarchyStore.mem_subtypesOf.mpr ⟨edge, HierarchyStore.mem_edgesInto.mpr
      ⟨stored, Finset.mem_singleton.mpr target, kind⟩, source⟩, ?_⟩
    rw [kept]
    exact HierarchyStore.crowded_not_kept crowded
  have size : entry.hiddenSubtypes = counted.card := by
    rw [settled.hidden entry member]
    exact (toFinset_card_of_nodup (distinct.filter _)).symm
  rw [size]
  constructor
  · intro same sub listed
    by_cases keeps : store.Keeps focus depth sub
    · exact .inl keeps
    · have whole := Finset.eq_of_subset_of_card_le subset same.ge
      refine .inr ((mem_counted sub).mp ?_)
      rw [whole, Finset.mem_sdiff, kept]
      exact ⟨listed, keeps⟩
  · intro all
    congr 1
    refine Finset.Subset.antisymm subset fun sub listed => ?_
    obtain ⟨into, hidden⟩ := Finset.mem_sdiff.mp listed
    rw [kept] at hidden
    exact (mem_counted sub).mpr ((all sub into).resolve_left hidden)

theorem DescendantWalk.Finished.shows (finished : walk.Finished store focus) : Shows store focus 5 walk.entries := by
  refine ⟨finished.distinct, fun id upper => (finished.shown id).mpr ?_, finished.placed⟩
  obtain ⟨differs, within⟩ := Finset.mem_erase.mp upper
  exact Finset.mem_erase.mpr ⟨differs, HierarchyStore.typesWithin_mono (by decide) within⟩

/-- The edges from below into a shown type are the deeper edges to it. -/
theorem HierarchyStore.deeperEdges_into {id : String} (shown : id ∈ store.subtypesWithin focus maxDescendantDepth) :
    (store.deeperEdges focus).filter (fun edge => edge.target = id) = (store.edgesInto {id}).filter fun edge =>
      edge.source ∉ store.typesWithin focus maxDescendantDepth := by
  rw [deeperEdges, edgesInto, edgesInto, filter_filter, filter_filter, filter_filter]
  refine filter_congr fun edge stored => ?_
  rw [Bool.eq_iff_iff]
  simp only [Bool.and_eq_true, decide_eq_true_eq, Finset.mem_singleton]
  constructor
  · rintro ⟨⟨target, far⟩, -, kind⟩
    exact ⟨far, target, kind⟩
  · rintro ⟨far, target, kind⟩
    refine ⟨⟨target, far⟩, ?_, kind⟩
    obtain ⟨level, below, at_⟩ := mem_subtypesWithin.mp shown
    have next := subtypes_within at_ (mem_subtypesOf.mpr
      ⟨edge, mem_edgesInto.mpr ⟨stored, Finset.mem_singleton.mpr target, kind⟩, rfl⟩)
    by_cases deepest : level + 1 = maxDescendantDepth
    · rw [target, ← deepest]
      exact at_
    · exact absurd (typesWithin_mono (by omega) next) far

theorem DescendantWalk.Finished.not_overfull (finished : walk.Finished store focus) : ¬ store.Overfull focus depth := by
  rintro ⟨shallow, -, crowd⟩
  have within := finished.fits
  have subset : store.subtypesWithin focus (depth + 1) ⊆ store.subtypesWithin focus maxDescendantDepth :=
    Finset.erase_subset_erase _ (HierarchyStore.typesWithin_mono shallow)
  have bound := Finset.card_le_card subset
  omega

/-- A level that is overfull is the only one. -/
theorem HierarchyStore.Overfull.unique {other : Nat} (first : store.Overfull focus depth)
    (second : store.Overfull focus other) : depth = other := by
  have mono {near far : Nat} (below : near ≤ far) :
      (store.subtypesWithin focus near).card ≤ (store.subtypesWithin focus far).card :=
    Finset.card_le_card (Finset.erase_subset_erase _ (typesWithin_mono below))
  obtain ⟨-, fitsFirst, crowdFirst⟩ := first
  obtain ⟨-, fitsSecond, crowdSecond⟩ := second
  by_contra differs
  rcases Nat.lt_or_gt_of_ne differs with less | more
  · have bound := mono (show depth + 1 ≤ other from less)
    omega
  · have bound := mono (show other + 1 ≤ depth from more)
    omega

theorem HierarchyStore.Overfull.crowded (overfull : store.Overfull focus depth) : store.crowded focus depth ≠ [] := by
  intro none_
  have short := drop_eq_nil_iff.mp none_
  obtain ⟨-, fits, crowd⟩ := overfull
  rw [card_subtypesWithin_succ] at crowd
  omega

/-- The entries of the subtype walk always lie at their distances, and its counts are exact under the three
conditions. -/
theorem descendant_counts_iff (store : HierarchyStore) (toLowercase : String → String) (focus : Node) :
    (walkDescendants store toLowercase focus).Right store focus.id ↔ store.CountsExactly focus.id := by
  have outcome := DescendantWalk.Complete.run toLowercase maxDescendantDepth
    (DescendantWalk.Complete.start store focus.id) rfl (by decide)
  rw [walkDescendants]
  generalize DescendantWalk.run store toLowercase maxDescendantDepth (0 + 1) ⟨[], [focus.id], [focus.id], 0, 0, false⟩ =
    walk at outcome ⊢
  rcases outcome with ⟨level, overfull, settled⟩ | finished
  · have shows := settled.shows
    have bounded : walk.bounded = true := by
      rw [settled.bounded, Bool.not_eq_true', isEmpty_eq_false_iff]
      exact overfull.crowded
    constructor
    · intro right
      refine ⟨fun never => absurd overfull (never level), fun depth same id keeps => ?_, fun never =>
        absurd overfull (never level)⟩
      obtain rfl := overfull.unique same
      obtain ⟨entry, member, rfl⟩ := mem_map.mp ((settled.shown id).mpr keeps)
      exact (settled.hidden_iff member).mp (right.hidden entry member)
    · intro exact_
      refine ⟨shows.distinct, fun entry => shows.apart, fun entry => shows.depths, fun entry => shows.parents,
        fun open_ => ?_, fun entry member => ?_⟩
      · rw [bounded] at open_
        cases open_
      · refine (settled.hidden_iff member).mpr (exact_.crowded level overfull entry.id ?_)
        exact (settled.shown _).mp (mem_map_of_mem member)
  · have shows := finished.shows
    have ids : entryIds walk.entries = store.subtypesWithin focus.id maxDescendantDepth := by
      ext id
      rw [mem_entryIds, finished.shown]
    have hidden {entry : HierarchyEntry} (member : entry ∈ walk.entries) : entry.hiddenSubtypes = ((store.edgesInto
        {entry.id}).filter fun edge => edge.source ∉ store.typesWithin focus.id maxDescendantDepth).length := by
      rw [finished.hidden entry member,
        HierarchyStore.deeperEdges_into ((finished.shown _).mp (mem_map_of_mem member))]
    have open_ : walk.bounded = false ↔ store.deeperEdges focus.id = [] := by
      rw [finished.bounded]
      simp
    constructor
    · intro right
      refine ⟨fun _ none_ => ?_, fun depth overfull => absurd overfull finished.not_overfull, fun _ id shown => ?_⟩
      · refine (shows.implementers (by decide)).mp ?_
        rw [← finished.implementers]
        exact right.implementers (open_.mpr none_)
      · obtain ⟨entry, member, rfl⟩ := mem_map.mp ((finished.shown id).mpr shown)
        rw [← hidden member, ← ids]
        exact right.hidden entry member
    · intro exact_
      have never (depth : Nat) : ¬ store.Overfull focus.id depth := finished.not_overfull
      refine ⟨shows.distinct, fun entry => shows.apart, fun entry => shows.depths, fun entry => shows.parents,
        fun bound => ?_, fun entry member => ?_⟩
      · rw [finished.implementers]
        exact (shows.implementers (by decide)).mpr (exact_.implementers never (open_.mp bound))
      · rw [hidden member, ids]
        exact exact_.deeper never entry.id ((finished.shown _).mp (mem_map_of_mem member))

/-- Each type extends the one before it, and the last one implements it as well. -/
def relatedTwice : List Edge :=
  [bareEdge "n1" "n0" .extends_, bareEdge "n2" "n1" .extends_, bareEdge "n3" "n2" .extends_,
    bareEdge "n4" "n3" .extends_, bareEdge "n5" "n4" .extends_, bareEdge "n6" "n5" .extends_,
    bareEdge "n7" "n6" .extends_, bareEdge "n7" "n6" .implements]

/-- The edges into a type are listed by their kinds, as the index on target and kind lists them. -/
def relatedTwiceStore : HierarchyStore where
  tables := .inTableOrder (["n0", "n1", "n2", "n3", "n4", "n5", "n6", "n7"].map fun id => bareNode id .interface)
    relatedTwice (by decide)
  listedInto ids := relatedTwice.filter fun edge => edge.target ∈ ids ∧ edge.kind ∈ typeKinds
  listedAll _ := List.Perm.refl _
  sourceStored edge stored := Option.isSome_iff_exists.mp <| by
    revert edge
    decide

/-- The last type is one subtype of the type before it, whose entry tells of two. -/
theorem parallel_edge_hides_twice :
    ¬ (walkDescendants relatedTwiceStore id (bareNode "n0" .interface)).Right relatedTwiceStore "n0" := by
  intro right
  have counted := right.hidden
  revert counted
  decide +kernel

end Counts

end Codegraph.Graph
