import Codegraph.DeadCode.Ancestry
import Codegraph.Library.Breadth
import Codegraph.Library.Caching

/- This file proves which ancestors the walk over all ids at once finds. -/

namespace Codegraph.DeadCode
open Codegraph.Core Codegraph.Graph InsertionMaps Breadth List
open Caching (mem_of_lookup)

/-- The roots that a frontier brings to a place. -/
def rootsIn (frontier : List (String × List String)) (id : String) : List String := (frontier.lookup id).getD []

/-- Some of the edges brings a root from the frontier to another place. -/
def Arrives (frontier : List (String × List String)) (edges : List Edge) (place root : String) : Prop :=
  ∃ edge ∈ edges, edge.target = place ∧ edge.target ≠ edge.source ∧ root ∈ rootsIn frontier edge.source

/-- One edge of the wanted kinds leads from a place to the next one. No kinds means every kind. -/
def Climbs (index : DeadCodeIndex) (kinds : List EdgeKind) (place next : String) : Prop :=
  ∃ edge ∈ index.tables.edges, edge.source = place ∧ edge.target = next ∧ allowedKind kinds edge.kind

section Level

variable {frontier rest : List (String × List String)} {edges : List Edge} {edge : Edge} {place target root : String}
  {merged : List String} {walk : AncestorWalk} {roots : Roots} {ids : List String}

/-- A frontier gains roots at one place only. -/
theorem rootsIn_extendFrontier : rootsIn (extendFrontier target merged rest) place =
    if place = target then rootsIn rest target ++ merged else rootsIn rest place := by
  induction rest with
  | nil =>
    by_cases same : place = target
    · simp [extendFrontier, rootsIn, same]
    · have apart : (place == target) = false := beq_eq_false_iff_ne.mpr same
      simp [extendFrontier, rootsIn, lookup_cons, same, apart]
  | cons entry rest ih =>
    obtain ⟨id, held⟩ := entry
    rw [extendFrontier]
    simp only [rootsIn] at ih ⊢
    by_cases here : id = target
    · subst here
      rw [if_pos rfl]
      by_cases same : place = id
      · subst same
        simp
      · have apart : (place == id) = false := beq_eq_false_iff_ne.mpr same
        simp [lookup_cons, same, apart]
    · rw [if_neg here]
      by_cases there : place = id
      · subst there
        simp [here]
      · have apart : (place == id) = false := beq_eq_false_iff_ne.mpr there
        have apart' : (target == id) = false := beq_eq_false_iff_ne.mpr fun same => here same.symm
        rw [lookup_cons, apart, ih, lookup_cons, apart', lookup_cons, apart]

theorem at_insert (id : String) :
    Roots.at (roots.insert target merged) id = if id = target then merged else roots.at id := by
  rw [Roots.at, InsertionMap.get_insert]
  split_ifs
  · rfl
  · rfl

/-- What the edges so far have brought along, on top of what was known before. -/
structure Brought (frontier : List (String × List String)) (before : AncestorWalk) (edges : List Edge)
    (walk : AncestorWalk) : Prop where
  seen : ∀ place root, root ∈ walk.seen.at place ↔ root ∈ before.seen.at place ∨ Arrives frontier edges place root
  reach : ∀ place root, root ∈ walk.reach.at place ↔
    root ∈ before.reach.at place ∨ root ∉ before.seen.at place ∧ Arrives frontier edges place root
  next : ∀ place root, root ∈ rootsIn walk.next place ↔ root ∉ before.seen.at place ∧ Arrives frontier edges place root
  given : ∀ place roots, walk.reach.get place = some roots → roots ≠ []

theorem arrives_concat : Arrives frontier (edges ++ [edge]) place root ↔
    Arrives frontier edges place root ∨
      edge.target = place ∧ edge.target ≠ edge.source ∧ root ∈ rootsIn frontier edge.source := by
  simp only [Arrives, mem_append, mem_singleton]
  constructor
  · rintro ⟨other, member | rfl, facts⟩
    · exact .inl ⟨other, member, facts⟩
    · exact .inr facts
  · rintro (⟨other, member, facts⟩ | facts)
    · exact ⟨other, .inl member, facts⟩
    · exact ⟨edge, .inr rfl, facts⟩

/-- What one edge does to the three maps. An edge that brings nothing leaves them as they are. -/
theorem climb_spec (frontier : List (String × List String)) (walk : AncestorWalk) (edge : Edge) (place : String) :
    let roots := if edge.target = edge.source then [] else rootsIn frontier edge.source
    let merged := roots.filter fun root => !(walk.seen.at edge.target).contains root
    (walk.climb frontier edge).seen.at place = walk.seen.at place ++ (if place = edge.target then merged else []) ∧
    (walk.climb frontier edge).reach.at place = walk.reach.at place ++ (if place = edge.target then merged else []) ∧
    rootsIn (walk.climb frontier edge).next place = rootsIn walk.next place ++
      (if place = edge.target then merged else []) ∧
    ∀ roots, (walk.climb frontier edge).reach.get place = some roots →
      roots ≠ [] ∨ walk.reach.get place = some roots := by
  intro roots merged
  by_cases idle : walk.climb frontier edge = walk ∧ merged = []
  · rw [idle.1, idle.2, ite_self, append_nil, append_nil, append_nil]
    exact ⟨rfl, rfl, rfl, fun _ found => .inr found⟩
  by_cases looped : edge.target = edge.source
  · exact absurd ⟨by rw [AncestorWalk.climb, if_pos looped], by simp [merged, roots, looped]⟩ idle
  · cases found : frontier.lookup edge.source with
    | none =>
      exact absurd ⟨by
        rw [AncestorWalk.climb, if_neg looped, found], by simp [merged, roots, looped, rootsIn, found]⟩ idle
    | some held =>
      have brings : roots = held := by simp [roots, looped, rootsIn, found]
      rw [AncestorWalk.climb, if_neg looped, found]
      dsimp only
      rw [← brings]
      refine ⟨?_, ?_, ?_, ?_⟩
      · rw [at_insert]
        split_ifs with same
        · rw [same]
        · rw [append_nil]
      · split_ifs with empty same same
        · rw [same]
          simp only [List.isEmpty_iff, List.append_eq_nil_iff] at empty
          rw [show merged = [] from empty.2, append_nil]
        · rw [append_nil]
        · rw [at_insert, if_pos same, same]
        · rw [at_insert, if_neg same, append_nil]
      · split_ifs with empty same same
        · rw [show merged = [] from isEmpty_iff.mp empty, append_nil]
        · rw [append_nil]
        · rw [rootsIn_extendFrontier, if_pos same, same]
        · rw [rootsIn_extendFrontier, if_neg same, append_nil]
      · intro stored kept
        split_ifs at kept with empty
        · exact .inr kept
        · rw [InsertionMap.get_insert] at kept
          split_ifs at kept
          · obtain rfl := Option.some.inj kept
            exact .inl fun none_ => empty (isEmpty_iff.mpr none_)
          · exact .inr kept

/-- Climbing an edge brings the roots below it to its target. -/
theorem Brought.climb {before : AncestorWalk} (brought : Brought frontier before edges walk) (edge : Edge) :
    Brought frontier before (edges ++ [edge]) (walk.climb frontier edge) := by
  obtain ⟨seen, reach, next, given⟩ := brought
  have new (place root : String) : root ∈ (if place = edge.target then
        (if edge.target = edge.source then [] else rootsIn frontier edge.source).filter fun root =>
          !(walk.seen.at edge.target).contains root
      else []) ↔ (edge.target = place ∧ edge.target ≠ edge.source ∧ root ∈ rootsIn frontier edge.source) ∧
        root ∉ walk.seen.at place := by
    by_cases same : place = edge.target
    · rw [if_pos same, mem_filter, same]
      by_cases looped : edge.target = edge.source
      · simp [looped]
      · simp [looped]
    · rw [if_neg same]
      constructor
      · intro member
        cases member
      · rintro ⟨⟨other, -⟩, -⟩
        exact absurd other.symm same
  refine ⟨fun place root => ?_, fun place root => ?_, fun place root => ?_, fun place roots found => ?_⟩
  · rw [(climb_spec frontier walk edge place).1, mem_append, new, arrives_concat, seen]
    tauto
  · rw [(climb_spec frontier walk edge place).2.1, mem_append, new, arrives_concat, reach, seen]
    tauto
  · rw [(climb_spec frontier walk edge place).2.2.1, mem_append, new, arrives_concat, next, seen]
    tauto
  · rcases (climb_spec frontier walk edge place).2.2.2 roots found with some_ | kept
    · exact some_
    · exact given place roots kept

/-- What all edges of a level bring along. -/
theorem brought_level {before : AncestorWalk}
    (given : ∀ place roots, before.reach.get place = some roots → roots ≠ []) (frontier : List (String × List String))
    (edges : List Edge) : Brought frontier before edges (edges.foldl (.climb frontier) { before with next := [] }) := by
  induction edges using reverseRecOn with
  | nil =>
    refine ⟨fun place root => ?_, fun place root => ?_, fun place root => ?_, given⟩
    · simp [Arrives]
    · simp [Arrives]
    · simp [Arrives, rootsIn]
  | append_singleton edges edge ih =>
    rw [foldl_append]
    exact ih.climb edge

end Level

section Levels

variable {index : DeadCodeIndex} {kinds : List EdgeKind} {ids : List String} {depth fuel : Nat}
  {frontier : List (String × List String)} {walk : AncestorWalk} {place root : String}

/-- The edges of a level, in the order in which they are taken. -/
def levelEdges (index : DeadCodeIndex) (kinds : List EdgeKind) (frontier : List (String × List String)) : List Edge :=
  (index.outgoingEdgesFrom (frontier.map Prod.fst) kinds).insertionSort fun first second =>
    (edgeCmp Edge.source Edge.target first second).isLE

/-- A root goes up along each wanted edge that leaves its place for another one. -/
theorem arrives_level : Arrives frontier (levelEdges index kinds frontier) place root ↔
    ∃ before, Climbs index kinds before place ∧ before ≠ place ∧ root ∈ rootsIn frontier before := by
  have member (edge : Edge) : edge ∈ levelEdges index kinds frontier ↔
      edge.source ∈ frontier.map Prod.fst ∧ edge ∈ index.tables.edges ∧ allowedKind kinds edge.kind := by
    rw [levelEdges, mem_insertionSort, DeadCodeIndex.outgoingEdgesFrom, mem_flatMap]
    constructor
    · rintro ⟨id, inside, taken⟩
      obtain ⟨stored, rfl, allowed⟩ := GraphStore.mem_outgoingEdges.mp taken
      exact ⟨mem_eraseDups.mp inside, stored, allowed⟩
    · rintro ⟨inside, stored, allowed⟩
      exact ⟨_, mem_eraseDups.mpr inside, GraphStore.mem_outgoingEdges.mpr ⟨stored, rfl, allowed⟩⟩
  constructor
  · rintro ⟨edge, inside, rfl, apart, brought⟩
    obtain ⟨-, stored, allowed⟩ := (member edge).mp inside
    exact ⟨edge.source, ⟨edge, stored, rfl, rfl, allowed⟩, apart.symm, brought⟩
  · rintro ⟨before, ⟨edge, stored, rfl, rfl, allowed⟩, apart, brought⟩
    refine ⟨edge, (member edge).mpr ⟨?_, stored, allowed⟩, rfl, apart.symm, brought⟩
    rw [rootsIn] at brought
    cases found : frontier.lookup edge.source with
    | none => simp [found] at brought
    | some roots => exact mem_map.mpr ⟨_, mem_of_lookup found, rfl⟩

/-- After some levels the walk has seen each place that is so near to a root, and its frontier holds those that are
just so far. -/
structure Levelled (index : DeadCodeIndex) (kinds : List EdgeKind) (ids : List String) (depth : Nat)
    (frontier : List (String × List String))
    (walk : AncestorWalk) : Prop where
  seen : ∀ place root, root ∈ walk.seen.at place ↔
    root ∈ ids ∧ ∃ near ≤ depth, At (Climbs index kinds) {root} near place
  reach : ∀ place root, root ∈ walk.reach.at place ↔
    root ∈ ids ∧ ∃ near, 1 ≤ near ∧ near ≤ depth ∧ At (Climbs index kinds) {root} near place
  frontier : ∀ place root, root ∈ rootsIn frontier place ↔ root ∈ ids ∧ At (Climbs index kinds) {root} depth place
  given : ∀ place roots, walk.reach.get place = some roots → roots ≠ []

/-- What arrives at a place that was not seen is one step further than the frontier. -/
theorem Levelled.arrives (levelled : Levelled index kinds ids depth frontier walk) :
    root ∉ walk.seen.at place ∧ Arrives frontier (levelEdges index kinds frontier) place root ↔
      root ∈ ids ∧ At (Climbs index kinds) {root} (depth + 1) place := by
  rw [levelled.seen, arrives_level]
  constructor
  · rintro ⟨far, before, climbs, -, brought⟩
    obtain ⟨known, at_⟩ := (levelled.frontier before root).mp brought
    obtain ⟨near, bound, nearest⟩ := at_.step_le climbs
    have exact_ : near = depth + 1 := by
      by_contra other
      exact far ⟨known, near, by omega, nearest⟩
    exact ⟨known, exact_ ▸ nearest⟩
  · rintro ⟨known, at_⟩
    obtain ⟨before, nearer, climbs⟩ := at_.pred
    refine ⟨fun ⟨_, near, bound, nearest⟩ => ?_, before, climbs, ?_,
      (levelled.frontier before root).mpr ⟨known, nearer⟩⟩
    · have same := nearest.unique at_
      omega
    · rintro rfl
      have same := nearer.unique at_
      omega

/-- A level takes the walk one step further. -/
theorem Levelled.climb (levelled : Levelled index kinds ids depth frontier walk) : Levelled index kinds ids (depth + 1)
    ((levelEdges index kinds frontier).foldl (AncestorWalk.climb frontier) { walk with next := [] }).next
      ((levelEdges index kinds frontier).foldl (.climb frontier) { walk with next := [] }) := by
  obtain ⟨seen, reach, next, given⟩ := brought_level levelled.given frontier (levelEdges index kinds frontier)
  refine ⟨fun place root => ?_, fun place root => ?_, fun place root => ?_, given⟩
  · rw [seen]
    constructor
    · intro known
      by_cases old : root ∈ walk.seen.at place
      · obtain ⟨member, near, bound, nearest⟩ := (levelled.seen place root).mp old
        exact ⟨member, near, by omega, nearest⟩
      · obtain ⟨member, nearest⟩ := levelled.arrives.mp ⟨old, known.resolve_left old⟩
        exact ⟨member, depth + 1, le_rfl, nearest⟩
    · rintro ⟨member, near, bound, nearest⟩
      rcases Nat.lt_or_eq_of_le bound with before | rfl
      · exact .inl ((levelled.seen place root).mpr ⟨member, near, by omega, nearest⟩)
      · exact .inr (levelled.arrives.mpr ⟨member, nearest⟩).2
  · rw [reach, levelled.arrives, levelled.reach]
    constructor
    · rintro (⟨member, near, positive, bound, nearest⟩ | ⟨member, nearest⟩)
      · exact ⟨member, near, positive, by omega, nearest⟩
      · exact ⟨member, depth + 1, by omega, le_rfl, nearest⟩
    · rintro ⟨member, near, positive, bound, nearest⟩
      rcases Nat.lt_or_eq_of_le bound with before | rfl
      · exact .inl ⟨member, near, positive, by omega, nearest⟩
      · exact .inr ⟨member, nearest⟩
  · rw [next, levelled.arrives]

/-- What the walk has reached after some more levels. -/
theorem Levelled.run (levelled : Levelled index kinds ids depth frontier walk) (fuel : Nat) :
    (∀ place root, root ∈ (ancestorLevels index kinds fuel frontier walk).at place ↔
      root ∈ ids ∧ ∃ near, 1 ≤ near ∧ near ≤ depth + fuel ∧ At (Climbs index kinds) {root} near place) ∧
    ∀ place roots, (ancestorLevels index kinds fuel frontier walk).get place = some roots → roots ≠ [] := by
  induction fuel generalizing depth frontier walk with
  | zero => exact ⟨levelled.reach, levelled.given⟩
  | succ fuel ih =>
    rw [ancestorLevels]
    split_ifs with empty
    · refine ⟨fun place root => ?_, levelled.given⟩
      rw [levelled.reach]
      refine and_congr_right fun member => exists_congr fun near => and_congr_right fun _ =>
        ⟨fun ⟨bound, nearest⟩ => ⟨by omega, nearest⟩, ?_⟩
      rintro ⟨-, nearest⟩
      refine ⟨?_, nearest⟩
      by_contra far
      obtain ⟨before, at_⟩ := nearest.nearer (Nat.le_of_not_le far)
      have waiting := (levelled.frontier before root).mpr ⟨member, at_⟩
      rw [isEmpty_iff.mp empty] at waiting
      cases waiting
    · have onward := ih levelled.climb
      rw [Nat.add_right_comm, Nat.add_assoc] at onward
      exact onward

theorem at_initial (ids : List String) (before : Roots) (id : String) :
    Roots.at (ids.foldl (fun seen id => seen.insert id [id]) before) id = if id ∈ ids then [id] else before.at id := by
  induction ids generalizing before with
  | nil => rfl
  | cons first ids ih =>
    rw [foldl_cons, ih, at_insert]
    by_cases same : id = first
    · simp [same]
    · simp [same]

theorem rootsIn_initial (ids : List String) (id : String) :
    rootsIn (ids.map fun id => (id, [id])) id = if id ∈ ids then [id] else [] := by
  induction ids with
  | nil => rfl
  | cons first ids ih =>
    rw [rootsIn] at ih ⊢
    by_cases same : id = first
    · subst same
      simp
    · have apart : (id == first) = false := beq_eq_false_iff_ne.mpr same
      rw [map_cons, lookup_cons, apart, ih]
      simp [same]

/-- The walk starts at its ids, each of which is its own root. -/
theorem levelled_initial (index : DeadCodeIndex) (kinds : List EdgeKind) (ids : List String) :
    Levelled index kinds ids 0 (ids.map fun id => (id, [id]))
      ⟨.empty, ids.foldl (fun seen id => seen.insert id [id]) .empty, []⟩ := by
  have self (place root : String) : root ∈ (if place ∈ ids then [place] else []) ↔
    root ∈ ids ∧ At (Climbs index kinds) {root} 0 place := by
    rw [at_zero_iff, Set.mem_singleton_iff]
    split_ifs with inside
    · rw [mem_singleton]
      constructor
      · rintro rfl
        exact ⟨inside, rfl⟩
      · exact fun both => both.2.symm
    · constructor
      · intro member
        cases member
      · rintro ⟨member, rfl⟩
        exact absurd member inside
  refine ⟨fun place root => ?_, fun place root => ?_, fun place root => ?_, fun place roots found => ?_⟩
  · rw [at_initial]
    refine (self place root).trans (and_congr_right fun _ => ⟨fun nearest => ⟨0, le_rfl, nearest⟩, ?_⟩)
    rintro ⟨near, bound, nearest⟩
    exact Nat.le_zero.mp bound ▸ nearest
  · simp only [Roots.at, InsertionMap.get_empty, Option.getD_none, not_mem_nil, false_iff]
    rintro ⟨-, near, positive, bound, -⟩
    omega
  · rw [rootsIn_initial]
    exact self place root
  · cases found

theorem ancestorsOf_spec (index : DeadCodeIndex) (kinds : List EdgeKind) (ids : List String) :
    (∀ place root, root ∈ (ancestorsOf index ids kinds).at place ↔
      root ∈ ids ∧ ∃ near, 1 ≤ near ∧ near ≤ maxOverrideAncestorDepth ∧ At (Climbs index kinds) {root} near place) ∧
    ∀ place roots, (ancestorsOf index ids kinds).get place = some roots → roots ≠ [] := by
  have run := (levelled_initial index kinds ids).run maxOverrideAncestorDepth
  rw [Nat.zero_add] at run
  exact run

/-- A map gives a root for a place when the place has an entry that holds it. -/
theorem exists_get_iff {roots : Roots} :
    (∃ held, roots.get place = some held ∧ root ∈ held) ↔ root ∈ roots.at place := by
  rw [Roots.at]
  cases roots.get place <;> simp

/-- The walk maps a place to the ids that it is the nearest few levels above, and to no empty set. -/
theorem ancestors_are_near (index : DeadCodeIndex) (ids : List String) (kinds : List EdgeKind) :
    (∀ place root, (∃ held, (ancestorsOf index ids kinds).get place = some held ∧ root ∈ held) ↔
      root ∈ ids ∧ place ≠ root ∧ ∃ near, 1 ≤ near ∧ near ≤ maxOverrideAncestorDepth ∧ At (Climbs index kinds)
      {root} near place) ∧
    ∀ place held, (ancestorsOf index ids kinds).get place = some held → held ≠ [] := by
  obtain ⟨reached, given⟩ := ancestorsOf_spec index kinds ids
  refine ⟨fun place root => ?_, given⟩
  rw [exists_get_iff, reached]
  refine and_congr_right fun _ =>
    ⟨fun ⟨near, positive, bound, nearest⟩ => ⟨?_, near, positive, bound, nearest⟩, fun facts => facts.2⟩
  rintro rfl
  have start : At (Climbs index kinds) {place} 0 place := at_zero_iff.mpr rfl
  have same := start.unique nearest
  omega

/-- One edge between two places. -/
def oneEdge : DeadCodeIndex where
  tables := .inTableOrder [] [⟨none, "a", "b", .contains, none, none, none, none⟩] List.nodup_nil
  unresolvedRefs := []
  generatedFiles := []

/-- Without any kinds the walk takes edges of all kinds. -/
theorem no_kinds_climb_every_edge : ¬ ∀ (index : DeadCodeIndex) (ids : List String) (kinds : List EdgeKind)
    (place root : String),
    (∃ held, (ancestorsOf index ids kinds).get place = some held ∧ root ∈ held) ↔
      root ∈ ids ∧ place ≠ root ∧ ∃ near, 1 ≤ near ∧ near ≤ maxOverrideAncestorDepth ∧
        At (fun place next => ∃ edge ∈ index.tables.edges, edge.source = place ∧ edge.target = next ∧
          edge.kind ∈ kinds) {root} near place := by
  intro claimed
  have reached : ∃ held, (ancestorsOf oneEdge ["a"] []).get "b" = some held ∧ "a" ∈ held := by
    have climbs : Climbs oneEdge [] "a" "b" := ⟨_, mem_singleton_self _, rfl, rfl, .inl rfl⟩
    rw [exists_get_iff, (ancestorsOf_spec oneEdge [] ["a"]).1]
    refine ⟨mem_singleton_self _, 1, le_rfl, by decide, .step (.here rfl) climbs, fun other walk => ?_⟩
    cases walk with
    | here begun => exact absurd begun (by decide)
    | step _ _ => exact Nat.succ_le_succ (Nat.zero_le _)
  obtain ⟨-, -, near, positive, -, walk, -⟩ := (claimed oneEdge ["a"] [] "b" "a").mp reached
  cases walk with
  | here _ => exact absurd positive (by decide)
  | step _ taken =>
    obtain ⟨edge, -, -, -, none_⟩ := taken
    cases none_

end Levels

end Codegraph.DeadCode
