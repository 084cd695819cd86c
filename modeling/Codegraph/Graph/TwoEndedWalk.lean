import Codegraph.Graph.NamedFlow
import Codegraph.Library.Folds
import Codegraph.Library.TwoEnded

/- This file shows that the walk from both ends finds a shortest call path. -/

namespace Codegraph.Graph
open Codegraph.Core InsertionMaps ParentChains Breadth TwoEnded List

section Expansion

variable {σ : Type} {contains : σ → String → Bool} {insert : σ → Node → NodeEdge → σ} {parentsOf : σ → Parents String}
  {store : GraphStore} {step : String → String → Prop} {sound : σ → Prop} {list : String → List NodeEdge}
  {front : List Node} {parents : Parents String} {starts : Set String} {level : Nat}

/-- The ids of a list of nodes. -/
def idsOf (nodes : List Node) (id : String) : Prop := id ∈ nodes.map Node.id

/-- The table of parents of a side answers membership, and an insertion sets one entry. -/
structure Tabled (contains : σ → String → Bool) (insert : σ → Node → NodeEdge → σ) (parentsOf : σ → Parents String) :
    Prop where
  contains_eq : ∀ side id, contains side id = (parentsOf side id).isSome
  set : ∀ side node row, parentsOf (insert side node row) row.node.id = some (some node.id)
  others : ∀ side node row id, id ≠ row.node.id → parentsOf (insert side node row) id = parentsOf side id

/-- A list serves a front when its rows over flow edges are the steps from the front, and inserting them is sound. -/
structure Serves (store : GraphStore) (step : String → String → Prop) (contains : σ → String → Bool)
    (insert : σ → Node → NodeEdge → σ) (sound : σ → Prop) (list : String → List NodeEdge) (front : List Node) :
    Prop where
  rows : ∀ node ∈ front, ∀ row ∈ list node.id, isFlowEdge row.edge.kind = true →
    step node.id row.node.id ∧ store.nodeById row.node.id = some row.node
  steps : ∀ node ∈ front, ∀ next, step node.id next →
    ∃ row ∈ list node.id, isFlowEdge row.edge.kind = true ∧ row.node.id = next
  keeps : ∀ side, sound side → ∀ node ∈ front, ∀ row ∈ list node.id, isFlowEdge row.edge.kind = true →
    contains side row.node.id = false → sound (insert side node row)

/-- A level under expansion keeps its side sound, and its next front has stored nodes. -/
structure Reaching (store : GraphStore) (step : String → String → Prop) (parentsOf : σ → Parents String)
    (sound : σ → Prop)
    (front : List Node) (parents : Parents String) (reached : σ × List Node) : Prop where
  expanding : Expanding step (idsOf front) parents (parentsOf reached.1) (idsOf reached.2)
  sound : sound reached.1
  stored : ∀ node ∈ reached.2, store.nodeById node.id = some node

/-- A neighbour that is reached keeps the level, the entries before it, and it has an entry when its edge flows. -/
theorem reachNeighbour_reaching (tabled : Tabled contains insert parentsOf)
    (serves : Serves store step contains insert sound list front) {reached : σ × List Node}
    (reaching : Reaching store step parentsOf sound front parents reached) {node : Node} (among : node ∈ front)
    {row : NodeEdge} (listed : row ∈ list node.id) :
    Reaching store step parentsOf sound front parents (reachNeighbour contains insert node reached row) ∧
      (∀ id, (parentsOf reached.1 id).isSome = true →
        (parentsOf (reachNeighbour contains insert node reached row).1 id).isSome = true) ∧
      (isFlowEdge row.edge.kind = true →
        (parentsOf (reachNeighbour contains insert node reached row).1 row.node.id).isSome = true) := by
  simp only [reachNeighbour]
  rcases flows : isFlowEdge row.edge.kind with _ | _
  · exact ⟨reaching, fun _ known => known, fun flow => by cases flow⟩
  simp only [Bool.not_true, Bool.false_or]
  split
  · rename_i known
    rw [tabled.contains_eq] at known
    exact ⟨reaching, fun _ entry => entry, fun _ => known⟩
  · rename_i fresh
    simp only [Bool.not_eq_true] at fresh
    obtain ⟨taken, stored⟩ := serves.rows node among row listed flows
    have absent : parentsOf reached.1 row.node.id = none := by
      rw [tabled.contains_eq] at fresh
      exact Option.isNone_iff_eq_none.mp (by simpa using fresh)
    refine ⟨⟨?_, serves.keeps _ reaching.sound node among row listed flows fresh, ?_⟩, ?_, ?_⟩
    · apply reaching.expanding.join (mem_map_of_mem among) taken absent (tabled.set _ _ _)
        (tabled.others reached.1 node row)
      intro place
      simp [idsOf]
    · intro other member
      rcases mem_append.mp member with old | new
      · exact reaching.stored other old
      · rw [mem_singleton.mp new]
        exact stored
    · intro id known
      by_cases same : id = row.node.id
      · rw [same, tabled.set]
        rfl
      · rw [tabled.others _ _ _ _ same]
        exact known
    · intro _
      rw [tabled.set]
      rfl

/-- Expanding the front of a side brings it one level further. -/
theorem expandLevel_side (tabled : Tabled contains insert parentsOf)
    (serves : Serves store step contains insert sound list front) {side : σ} (begun : sound side)
    (at_ : Side step starts level (parentsOf side) (idsOf front)) {grown : σ} {next : List Node}
    (expanded : expandLevel contains insert list front side = (grown, next)) :
    Side step starts (level + 1) (parentsOf grown) (idsOf next) ∧ sound grown ∧
      ∀ node ∈ next, store.nodeById node.id = some node := by
  have flat : expandLevel contains insert list front side =
      (front.flatMap fun node => (list node.id).map fun row => (node, row)).foldl
        (fun reached pair => reachNeighbour contains insert pair.1 reached pair.2) (side, []) := by
    simp only [expandLevel, foldl_flatMap, foldl_map]
  have member_iff {pair : Node × NodeEdge} :
      pair ∈ (front.flatMap fun node => (list node.id).map fun row => (node, row)) →
        pair.1 ∈ front ∧ pair.2 ∈ list pair.1.id := by
    intro member
    obtain ⟨node, among, mapped⟩ := mem_flatMap.mp member
    obtain ⟨row, listed, rfl⟩ := mem_map.mp mapped
    exact ⟨among, listed⟩
  have start : Reaching store step parentsOf sound front (parentsOf side) (side, []) := by
    refine ⟨?_, begun, fun node member => by cases member⟩
    have none_ : idsOf [] = fun _ => False := by
      funext id
      simp [idsOf]
    rw [none_]
    exact .start
  obtain ⟨reaching, -, settled⟩ := Folds.foldl_settles
    (fun reached pair => reachNeighbour contains insert pair.1 reached pair.2)
    (Reaching store step parentsOf sound front (parentsOf side))
    (fun pair reached => isFlowEdge pair.2.edge.kind = true → (parentsOf reached.1 pair.2.node.id).isSome = true)
    (front.flatMap fun node => (list node.id).map fun row => (node, row)) (by
      intro pair member reached holds other done flows
      exact (reachNeighbour_reaching tabled serves holds (member_iff member).1 (member_iff member).2).2.1 _
        (done flows))
    (by
      intro pair member reached holds
      have reach := reachNeighbour_reaching tabled serves holds (member_iff member).1 (member_iff member).2
      exact ⟨reach.1, reach.2.2⟩) start
  rw [← flat, expanded] at reaching settled
  refine ⟨at_.advance reaching.expanding ?_, reaching.sound, reaching.stored⟩
  intro before inFront place taken
  obtain ⟨node, among, rfl⟩ := mem_map.mp inFront
  obtain ⟨row, listed, flows, rfl⟩ := serves.steps node among place taken
  exact settled (node, row) (mem_flatMap.mpr ⟨node, among, mem_map_of_mem listed⟩) flows

end Expansion

section Sides

variable {store : GraphStore} {seed : Node} {sinks : List String} {forth back : Nat}

/-- The order of a sound forward side has its keys, and each hop rides a flow edge from the hop before it. -/
structure ForwardSide.Sound (store : GraphStore) (seed : Node) (side : ForwardSide) : Prop where
  ordered : side.order = side.hops.keys
  begins : side.hops.get seed.id = some ⟨none, none, seed⟩
  hops : ∀ id hop, side.hops.get id = some hop → store.nodeById id = some hop.node ∧
    ∀ before, hop.prev = some before → ∃ edge, hop.edge = some edge ∧ RidesFlow store edge before id

def BackwardSide.parents (side : BackwardSide) : Parents String :=
  fun id => (side.links.get id).map (Option.map Prod.fst)

/-- A sound backward side knows its nodes, and each link rides a flow edge out of its node. -/
def BackwardSide.Sound (store : GraphStore) (side : BackwardSide) : Prop :=
  ∀ id link, side.links.get id = some link → store.Exists id ∧ side.nodes id = store.nodeById id ∧
    ∀ next edge, link = some (next, edge) → RidesFlow store edge id next

theorem ForwardSide.tabled : Tabled ForwardSide.contains ForwardSide.insert fun side => Parent.parents side.hops := by
  refine ⟨fun side id => ?_, fun side node row => ?_, fun side node row id differs => ?_⟩
  · simp [ForwardSide.contains, InsertionMap.containsKey, Parent.parents]
  · simp [ForwardSide.insert, Parent.parents]
  · simp [ForwardSide.insert, Parent.parents, InsertionMap.get_insert_ne differs]

theorem BackwardSide.tabled : Tabled BackwardSide.contains BackwardSide.insert BackwardSide.parents := by
  refine ⟨fun side id => ?_, fun side node row => ?_, fun side node row id differs => ?_⟩
  · simp [BackwardSide.contains, InsertionMap.containsKey, BackwardSide.parents]
  · simp [BackwardSide.insert, BackwardSide.parents]
  · simp [BackwardSide.insert, BackwardSide.parents, InsertionMap.get_insert_ne differs]

/-- The side of the seeds goes along the flow. -/
theorem ForwardSide.serves {front : List Node} (stored : ∀ node ∈ front, store.nodeById node.id = some node) :
    Serves store (flowStep store) ForwardSide.contains ForwardSide.insert (ForwardSide.Sound store seed) (callees store)
      front := by
  have rides {node : Node} (among : node ∈ front) {row : NodeEdge} (listed : row ∈ callees store node.id)
      (flows : isFlowEdge row.edge.kind = true) := callees_rides listed flows ⟨node, stored node among⟩
  refine ⟨?_, fun node among next taken => callees_complete taken, ?_⟩
  · intro node among row listed flows
    obtain ⟨ride, found⟩ := rides among listed flows
    exact ⟨⟨row.edge, ride⟩, found⟩
  · intro side sound node among row listed flows fresh
    obtain ⟨ride, found⟩ := rides among listed flows
    simp only [ForwardSide.contains, InsertionMap.containsKey, Option.isSome_eq_false_iff, Option.isNone_iff_eq_none]
      at fresh
    refine ⟨?_, ?_, ?_⟩
    · simp only [ForwardSide.insert, InsertionMap.keys_insert_fresh fresh, sound.ordered]
    · have differs : seed.id ≠ row.node.id := by
        intro same
        rw [← same, sound.begins] at fresh
        cases fresh
      simp only [ForwardSide.insert, InsertionMap.get_insert_ne differs, sound.begins]
    · intro id hop present
      simp only [ForwardSide.insert, InsertionMap.get_insert] at present
      split at present
      · rename_i same
        obtain rfl := Option.some.inj present
        refine ⟨by rw [same]; exact found, ?_⟩
        rintro before begun
        obtain rfl := Option.some.inj begun
        exact ⟨row.edge, rfl, by rw [same]; exact ride⟩
      · exact sound.hops id hop present

/-- The side of the sinks goes against the flow. -/
theorem BackwardSide.serves {front : List Node} (stored : ∀ node ∈ front, store.nodeById node.id = some node) :
    Serves store (flip (flowStep store)) BackwardSide.contains BackwardSide.insert (BackwardSide.Sound store)
      (callers store) front := by
  have rides {node : Node} (among : node ∈ front) {row : NodeEdge} (listed : row ∈ callers store node.id)
      (flows : isFlowEdge row.edge.kind = true) := callers_rides listed flows ⟨node, stored node among⟩
  refine ⟨?_, fun node among next taken => callers_complete taken, ?_⟩
  · intro node among row listed flows
    obtain ⟨ride, found⟩ := rides among listed flows
    exact ⟨⟨row.edge, ride⟩, found⟩
  · intro side sound node among row listed flows _ id link present
    obtain ⟨ride, found⟩ := rides among listed flows
    simp only [BackwardSide.insert, InsertionMap.get_insert] at present
    split at present
    · rename_i same
      obtain rfl := Option.some.inj present
      refine ⟨by rw [same]; exact ⟨_, found⟩, by simp [BackwardSide.insert, same, found], ?_⟩
      rintro next edge begun
      obtain ⟨rfl, rfl⟩ := Prod.mk.inj (Option.some.inj begun)
      rw [same]
      exact ride
    · rename_i differs
      obtain ⟨exists_, known, out⟩ := sound id link present
      exact ⟨exists_, by simp only [BackwardSide.insert, Function.update_of_ne differs, known], out⟩

/-- A sink is a listed id with a node. -/
def sinkSet (store : GraphStore) (sinks : List String) : Set String := {id | id ∈ sinks ∧ store.Exists id}

/-- The two sides stand at their levels. -/
structure TwoEnds.Stand (store : GraphStore) (seed : Node) (sinks : List String) (forth back : Nat) (ends : TwoEnds) :
    Prop
    where
  forward : Side (flowStep store) {seed.id} forth (Parent.parents ends.forward.hops) (idsOf ends.frontF)
  backward : Side (flip (flowStep store)) (sinkSet store sinks) back ends.backward.parents (idsOf ends.frontB)
  forwardSound : ends.forward.Sound store seed
  backwardSound : ends.backward.Sound store
  frontF : ∀ node ∈ ends.frontF, store.nodeById node.id = some node
  frontB : ∀ node ∈ ends.frontB, store.nodeById node.id = some node

/-- A side of stored ids stays below the visit cap. -/
theorem below_cap {V : Type} {map : InsertionMap String V} (small : store.nodes.length ≤ directedVisitCap)
    (stored : ∀ id value, map.get id = some value → store.Exists id) : ¬ map.len > directedVisitCap := by
  have bound := map.len_le fun id value found => GraphStore.exists_iff.mp (stored id value found)
  rw [length_map] at bound
  omega

/-- No walk from the seed to a sink is as short as this. -/
def Apart (store : GraphStore) (seed : Node) (sinks : List String) (length : Nat) : Prop :=
  ∀ other ≤ length, ¬ Joined (flowStep store) {seed.id} (sinkSet store sinks) other

/-- A round brings one side one level further, or the ends are not joined at all. -/
theorem TwoEnds.Stand.round {ends : TwoEnds} (stand : ends.Stand store seed sinks forth back)
    (small : store.nodes.length ≤ directedVisitCap) (apart : Apart store seed sinks (forth + back)) :
    (ends.round store = none ∧ ∀ length, ¬ Joined (flowStep store) {seed.id} (sinkSet store sinks) length) ∨
      ∃ after nextForth nextBack, ends.round store = some after ∧ nextForth + nextBack = forth + back + 1 ∧
        after.Stand store seed sinks nextForth nextBack := by
  have smallF := below_cap small fun id hop found => ⟨_, (stand.forwardSound.hops id hop found).1⟩
  have smallB := below_cap small fun id link found => (stand.backwardSound id link found).1
  simp only [TwoEnds.round, if_neg smallF, if_neg smallB]
  split
  · rcases expanded : expandLevel ForwardSide.contains ForwardSide.insert (callees store) ends.frontF ends.forward with
      ⟨grown, next⟩
    obtain ⟨side, sound, stored⟩ := expandLevel_side ForwardSide.tabled (ForwardSide.serves stand.frontF)
      stand.forwardSound stand.forward expanded
    rcases next with _ | ⟨first, rest⟩
    · refine .inl ⟨rfl, ?_⟩
      rintro length ⟨last, ended, walk⟩
      obtain ⟨near, bound, reached⟩ := side.exhausted (by simp [idsOf]) walk
      exact apart near (by omega) ⟨last, ended, reached.1⟩
    · refine .inr ⟨_, forth + 1, back, rfl, by omega, ?_⟩
      exact ⟨side, stand.backward, sound, stand.backwardSound, stored, stand.frontB⟩
  · rcases expanded : expandLevel BackwardSide.contains BackwardSide.insert
      (callers store) ends.frontB ends.backward with
      ⟨grown, next⟩
    obtain ⟨side, sound, stored⟩ := expandLevel_side BackwardSide.tabled (BackwardSide.serves stand.frontB)
      stand.backwardSound stand.backward expanded
    rcases next with _ | ⟨first, rest⟩
    · refine .inl ⟨rfl, ?_⟩
      rintro length ⟨last, ended, walk⟩
      have returned : Walk (flip (flowStep store)) (sinkSet store sinks) (0 + length) seed.id :=
        .append (.here ended) (walk_reverse walk)
      obtain ⟨near, bound, reached⟩ := side.exhausted (by simp [idsOf]) returned
      have joined := joined_of_shared (Walk.here rfl : Walk (flowStep store) {seed.id} 0 seed.id) reached.1
      exact apart (0 + near) (by omega) joined
    · refine .inr ⟨_, forth, back + 1, rfl, by omega, ?_⟩
      exact ⟨stand.forward, side, stand.forwardSound, sound, stand.frontF, stored⟩

end Sides

/-- A flow path leads over flow edges from the seed to a sink that exists. -/
structure SinkPath (store : GraphStore) (seed : String) (sinks path : List String) : Prop where
  begins : path.head? = some seed
  ends : ∃ sink ∈ sinks, store.Exists sink ∧ path.getLast? = some sink
  flows : path.IsChain (flowStep store)

/-- A step rides a flow edge from the step before it. -/
def FlowStep.Rides (store : GraphStore) (before after : FlowStep) : Prop :=
  ∃ edge, after.edge = some edge ∧ RidesFlow store edge before.id after.id

/-- The steps of a flow are stored nodes on a path to a sink, joined by their edges, and none is repeated. -/
structure SinkFlow (store : GraphStore) (seed : Node) (sinks : List String) (steps : List FlowStep) : Prop where
  begins : steps.head? = some ⟨seed, none⟩
  path : SinkPath store seed.id sinks (steps.map FlowStep.id)
  rides : steps.IsChain (FlowStep.Rides store)
  stored : ∀ step ∈ steps, store.nodeById step.id = some step.node
  simple : (steps.map FlowStep.id).Nodup

section Stitching

variable {store : GraphStore} {seed : Node} {sinks : List String} {forth back : Nat}
  {meet : String} {places : List String}

theorem joined_iff_path {length : Nat} : Joined (flowStep store) {seed.id} (sinkSet store sinks) length ↔
    ∃ path, SinkPath store seed.id sinks path ∧ path.length = length + 1 := by
  constructor
  · rintro ⟨last, ⟨listed, present⟩, walk⟩
    obtain ⟨path, head, ended, chain, size⟩ := walk_iff_path.mp walk
    exact ⟨path, ⟨head, ⟨last, listed, present, ended⟩, chain⟩, size⟩
  · rintro ⟨path, ⟨head, ⟨last, listed, present, ended⟩, chain⟩, size⟩
    exact ⟨last, ⟨listed, present⟩, walk_iff_path.mpr ⟨path, head, ended, chain, size⟩⟩

/-- The forward half has the ids of its chain, and each step rides from the one before. -/
theorem ForwardSide.Sound.half {side : ForwardSide} (sound : side.Sound store seed)
    (chain : Chain (Parent.parents side.hops) meet places) :
    ∃ steps, places.reverse.filterMap (Parent.step side.hops) = steps ∧ steps.map FlowStep.id = places.reverse ∧
      steps.IsChain (FlowStep.Rides store) ∧ ∀ step ∈ steps, store.nodeById step.id = some step.node := by
  have looked {id : String} {hop : Hop} (found : side.hops.get id = some hop) : hop.node.id = id :=
    GraphStore.nodeById_id (sound.hops id hop found).1
  induction chain with
  | @root place found =>
    obtain ⟨hop, stored, -⟩ := Option.map_eq_some_iff.mp found
    refine ⟨[⟨hop.node, hop.edge⟩], by simp [Parent.step, stored], by simp [FlowStep.id, looked stored],
      isChain_singleton _, ?_⟩
    intro step member
    rw [mem_singleton.mp member]
    simp only [FlowStep.id, looked stored]
    exact (sound.hops _ _ stored).1
  | @link place before places found rest ih =>
    obtain ⟨hop, stored, prev⟩ := Option.map_eq_some_iff.mp found
    obtain ⟨steps, made, ids, rides, nodes⟩ := ih
    refine ⟨steps ++ [⟨hop.node, hop.edge⟩], ?_, ?_, ?_, ?_⟩
    · rw [reverse_cons, filterMap_append, made]
      simp [Parent.step, stored]
    · rw [map_append, ids, reverse_cons]
      simp [FlowStep.id, looked stored]
    · refine isChain_append.mpr ⟨rides, isChain_singleton _, ?_⟩
      intro last ended first begun
      obtain rfl := Option.some.inj begun
      obtain ⟨edge, held, ride⟩ := (sound.hops place hop stored).2 before prev
      refine ⟨edge, held, ?_⟩
      have lastId : last.id = before := by
        have mapped : (steps.map FlowStep.id).getLast? = some last.id := by
          rw [getLast?_map, Option.mem_def.mp ended]
          rfl
        rw [ids, getLast?_reverse, rest.head] at mapped
        exact (Option.some.inj mapped).symm
      rw [lastId]
      simp only [FlowStep.id, looked stored]
      exact ride
    · intro step member
      rcases mem_append.mp member with old | new
      · exact nodes step old
      · rw [mem_singleton.mp new]
        simp only [FlowStep.id, looked stored]
        exact (sound.hops _ _ stored).1

/-- Following the links from a place adds the rest of its chain, each step riding from the one before. -/
theorem BackwardSide.Sound.follow {side : BackwardSide} (sound : side.Sound store)
    (chain : Chain side.parents meet places) (fuel : Nat) (enough : places.length ≤ fuel) (steps : List FlowStep) :
    ∃ out, side.follow fuel (side.links.get meet).join steps = some (steps ++ out) ∧
      out.map FlowStep.id = places.tail ∧ (∀ step, step.id = meet → (step :: out).IsChain (FlowStep.Rides store)) ∧
      ∀ step ∈ out, store.nodeById step.id = some step.node := by
  induction chain generalizing fuel steps with
  | @root place found =>
    obtain ⟨fuel, rfl⟩ : ∃ less, fuel = less + 1 := ⟨fuel - 1, by simp only [length_singleton] at enough; omega⟩
    obtain ⟨link, stored, none_⟩ := Option.map_eq_some_iff.mp found
    obtain rfl := Option.map_eq_none_iff.mp none_
    exact ⟨[], by simp [stored, BackwardSide.follow], rfl, fun _ _ => isChain_singleton _,
      fun _ none => by cases none⟩
  | @link place next places found rest ih =>
    obtain ⟨fuel, rfl⟩ : ∃ less, fuel = less + 1 := ⟨fuel - 1, by simp only [length_cons] at enough; omega⟩
    obtain ⟨link, stored, linked⟩ := Option.map_eq_some_iff.mp found
    obtain ⟨⟨nextId, edge⟩, rfl, same⟩ := Option.map_eq_some_iff.mp linked
    obtain rfl : nextId = next := same
    obtain ⟨-, -, out⟩ := sound place _ stored
    have ride := out nextId edge rfl
    obtain ⟨entry, present⟩ := Option.isSome_iff_exists.mp (rest.found nextId rest.mem_self)
    obtain ⟨nextLink, kept, -⟩ := Option.map_eq_some_iff.mp present
    obtain ⟨⟨node, found⟩, known, -⟩ := sound nextId nextLink kept
    have nodeId : node.id = nextId := GraphStore.nodeById_id found
    obtain ⟨more, followed, ids, rides, nodes⟩ := ih fuel (by simp only [length_cons] at enough; omega)
      (steps ++ [⟨node, some edge⟩])
    refine ⟨⟨node, some edge⟩ :: more, ?_, ?_, ?_, ?_⟩
    · rw [stored, Option.join_some, BackwardSide.follow, known, found]
      simp only [followed, append_assoc, singleton_append]
    · have tail : nextId :: places.tail = places := cons_head?_tail (Option.mem_def.mpr rest.head)
      rw [map_cons, ids, tail_cons, FlowStep.id, nodeId, tail]
    · intro step same
      refine .cons_cons ⟨edge, rfl, ?_⟩ (rides _ nodeId)
      rw [same]
      simp only [FlowStep.id, nodeId]
      exact ride
    · intro step member
      rcases mem_cons.mp member with rfl | later
      · simp only [FlowStep.id, nodeId]
        exact found
      · exact nodes step later

/-- The forward half begins at the seed and ends on the meeting node. -/
theorem ForwardSide.Sound.half_ends {side : ForwardSide} (sound : side.Sound store seed)
    (chain : Chain (Parent.parents side.hops) meet places)
    (rooted : ∀ root, Parent.parents side.hops root = some none → root = seed.id) {steps : List FlowStep}
    (made : places.reverse.filterMap (Parent.step side.hops) = steps) (ids : steps.map FlowStep.id = places.reverse) :
    steps.head? = some ⟨seed, none⟩ ∧ ∃ front last, steps = front ++ [last] ∧ last.id = meet := by
  refine ⟨?_, ?_⟩
  · obtain ⟨root, rootLast, found⟩ := chain.ends_at_root
    have reversed : places.reverse.head? = some seed.id := by rw [head?_reverse, rootLast, rooted root found]
    rw [← made, ← cons_head?_tail (Option.mem_def.mpr reversed), filterMap_cons, Parent.step, sound.begins]
    rfl
  · have mapped : (steps.map FlowStep.id).getLast? = some meet := by rw [ids, getLast?_reverse, chain.head]
    rw [getLast?_map] at mapped
    obtain ⟨last, ended, same⟩ := Option.map_eq_some_iff.mp mapped
    obtain ⟨front, whole⟩ := getLast?_eq_some_iff.mp ended
    exact ⟨front, last, whole, same⟩

/-- Two halves that meet in one step make a flow to a sink, when the nodes along them lie ever further from the seed. -/
theorem SinkFlow.of_halves {front out : List FlowStep} {last : FlowStep} {early late : List String} {sink : String}
    (begins : (front ++ [last]).head? = some ⟨seed, none⟩)
    (ids : (front ++ [last] ++ out).map FlowStep.id = early.reverse ++ last.id :: late)
    (rides : (front ++ [last]).IsChain (FlowStep.Rides store)) (onward : (last :: out).IsChain (FlowStep.Rides store))
    (stored : ∀ step ∈ front ++ [last] ++ out, store.nodeById step.id = some step.node)
    (advances : (early.reverse ++ last.id :: late).IsChain (Advances (flowStep store) {seed.id}))
    (ended : (last.id :: late).getLast? = some sink) (listed : sink ∈ sinks) (present : store.Exists sink) :
    SinkFlow store seed sinks (front ++ [last] ++ out) := by
  have wholeRides : (front ++ [last] ++ out).IsChain (FlowStep.Rides store) := by
    rw [append_assoc, singleton_append, isChain_split]
    exact ⟨rides, onward⟩
  have wholeBegins : (front ++ [last] ++ out).head? = some ⟨seed, none⟩ := by
    rw [head?_append, begins]
    rfl
  have wholeEnds : ((front ++ [last] ++ out).map FlowStep.id).getLast? = some sink := by
    rw [ids, getLast?_append, ended]
    rfl
  refine ⟨wholeBegins, ⟨?_, ⟨sink, listed, present, wholeEnds⟩, ?_⟩, wholeRides, stored, ?_⟩
  · rw [head?_map, wholeBegins]
    rfl
  · rw [isChain_map]
    exact wholeRides.imp fun before after ride => ⟨ride.choose, ride.choose_spec.2⟩
  · rw [ids]
    exact nodup_of_advances advances

/-- The walk back from a meeting node answers the joined halves when the hops allow them. -/
theorem TwoEnds.stitch_eq {ends : TwoEnds} {fuel maxHops : Nat} {early : List String}
    {steps out : List FlowStep} (chain : Chain (Parent.parents ends.forward.hops) meet early)
    (enough : early.length < fuel) (made : early.reverse.filterMap (Parent.step ends.forward.hops) = steps)
    (followed : ends.backward.follow fuel (ends.backward.links.get meet).join steps = some (steps ++ out))
    (long : 2 ≤ (steps ++ out).length) (flows : SinkFlow store seed sinks (steps ++ out)) :
    ends.stitch fuel sinks maxHops meet =
      some (if (steps ++ out).length ≤ maxHops then some (steps ++ out) else none) := by
  have fits : ¬ (steps ++ out).length < 2 := by omega
  have arrives : (steps ++ out).getLast?.any (fun last => decide (last.node.id ∈ sinks)) = true := by
    obtain ⟨sink, listed, -, ended⟩ := flows.path.ends
    rw [getLast?_map] at ended
    obtain ⟨final, ended, same⟩ := Option.map_eq_some_iff.mp ended
    rw [ended]
    simp only [Option.any_some, decide_eq_true_eq]
    rw [← FlowStep.id, same]
    exact listed
  rw [TwoEnds.stitch, chainTo_chain chain enough, made]
  simp only [Option.bind_eq_bind, Option.bind_some, followed, arrives, fits]
  rfl

/-- At the first meeting the halves join into a shortest flow, and it is answered when the hops allow it. -/
theorem TwoEnds.Stand.stitch {ends : TwoEnds} (stand : ends.Stand store seed sinks forth back)
    (least : ∀ other, Joined (flowStep store) {seed.id} (sinkSet store sinks) other → forth + back ≤ other)
    (moved : 1 ≤ forth + back) (inForward : ends.forward.contains meet = true)
    (inBackward : ends.backward.contains meet = true) {fuel : Nat} (enough : forth + back + 2 ≤ fuel) (maxHops : Nat) :
    ∃ flow, SinkFlow store seed sinks flow ∧ flow.length = forth + back + 1 ∧
      ends.stitch fuel sinks maxHops meet = some (if flow.length ≤ maxHops then some flow else none) := by
  rw [ForwardSide.tabled.contains_eq] at inForward
  rw [BackwardSide.tabled.contains_eq] at inBackward
  obtain ⟨near, nearBound, reached⟩ := (stand.forward.known meet).mp inForward
  obtain ⟨far, farBound, returned⟩ := (stand.backward.known meet).mp inBackward
  have total := least _ (joined_of_shared reached.1 returned.1)
  obtain rfl : near = forth := by omega
  obtain rfl : far = back := by omega
  obtain ⟨rankF, rankedF, exactF⟩ := stand.forward.ranked
  obtain ⟨rankB, rankedB, exactB⟩ := stand.backward.ranked
  obtain ⟨early, chainF, sizeF⟩ := rankedF.chain inForward
  obtain ⟨late, chainB, sizeB⟩ := rankedB.chain inBackward
  rw [exactF _ _ reached] at sizeF
  rw [exactB _ _ returned] at sizeB
  have earlyCons : early = meet :: early.tail := (cons_head?_tail (Option.mem_def.mpr chainF.head)).symm
  have lateCons : late = meet :: late.tail := (cons_head?_tail (Option.mem_def.mpr chainB.head)).symm
  obtain ⟨steps, made, ids, rides, nodes⟩ := stand.forwardSound.half chainF
  obtain ⟨out, followed, outIds, outRides, outNodes⟩ := stand.backwardSound.follow chainB fuel (by omega) steps
  have rooted (root : String) (found : Parent.parents ends.forward.hops root = some none) : root = seed.id :=
    Set.mem_singleton_iff.mp (at_zero_iff.mp (stand.forward.roots root found))
  obtain ⟨begins, front, last, rfl, rfl⟩ := stand.forwardSound.half_ends chainF rooted made ids
  obtain ⟨sink, sinkLast, sinkRooted⟩ := chainB.ends_at_root
  obtain ⟨sinkListed, sinkExists⟩ := at_zero_iff.mp (stand.backward.roots sink sinkRooted)
  have wholeIds : (front ++ [last] ++ out).map FlowStep.id = early.tail.reverse ++ last.id :: late.tail := by
    rw [map_append, ids, outIds, earlyCons, reverse_cons, append_assoc, tail_cons]
    rfl
  have advances : (early.tail.reverse ++ last.id :: late.tail).IsChain (Advances (flowStep store) {seed.id}) := by
    have forwards := stand.forward.forward_advances chainF
    have backwards := stand.backward.backward_advances least chainB reached returned rfl
    rw [earlyCons, reverse_cons] at forwards
    rw [lateCons] at backwards
    rw [isChain_split]
    exact ⟨forwards, backwards⟩
  have size : (front ++ [last] ++ out).length = near + far + 1 := by
    have counted := congrArg length wholeIds
    simp only [length_map, length_append, length_reverse, length_cons, length_tail]
      at counted ⊢
    omega
  have flows : SinkFlow store seed sinks (front ++ [last] ++ out) := by
    refine .of_halves begins wholeIds rides (outRides last rfl) ?_ advances (lateCons ▸ sinkLast) sinkListed sinkExists
    intro step member
    rcases mem_append.mp member with old | new
    · exact nodes step old
    · exact outNodes step new
  exact ⟨_, flows, size, TwoEnds.stitch_eq chainF (by omega) made followed (by omega) flows⟩

end Stitching

section Search

variable {store : GraphStore} {seed : Node} {sinks : List String} {forth back : Nat}

/-- An answer within a number of rounds is a shortest flow, or no flow is short enough for the rounds and the hops. -/
inductive Answers (store : GraphStore) (seed : Node) (sinks : List String) (maxHops limit : Nat) :
    Option (List FlowStep) → Prop
  | found {flow : List FlowStep} (flows : SinkFlow store seed sinks flow) (fits : flow.length ≤ maxHops)
      (least : ∀ length, Joined (flowStep store) {seed.id} (sinkSet store sinks) length → flow.length ≤ length + 1) :
      Answers store seed sinks maxHops limit (some flow)
  | missing (apart : ∀ length, Joined (flowStep store) {seed.id} (sinkSet store sinks) length →
      limit < length ∨ maxHops < length + 1) : Answers store seed sinks maxHops limit none

/-- The rounds answer from any pair of levels at which the sides have not met. -/
theorem TwoEnds.Stand.run (small : store.nodes.length ≤ directedVisitCap) (fuel maxHops rounds : Nat)
    {ends : TwoEnds} (stand : ends.Stand store seed sinks forth back) (apart : Apart store seed sinks (forth + back))
    (enough : forth + back + rounds + 2 ≤ fuel) :
    ∃ result, TwoEnds.run store fuel sinks maxHops rounds ends = some result ∧
      Answers store seed sinks maxHops (forth + back + rounds) result := by
  induction rounds generalizing forth back ends with
  | zero =>
    refine ⟨none, rfl, .missing fun length joined => .inl ?_⟩
    by_contra short
    exact apart length (by omega) joined
  | succ rounds ih =>
    rcases stand.round small apart with ⟨stopped, never⟩ | ⟨after, nextForth, nextBack, stepped, levels, standing⟩
    · exact ⟨none, by simp only [TwoEnds.run, stopped], .missing fun length joined => absurd joined (never length)⟩
    simp only [TwoEnds.run, stepped]
    rcases search : after.forward.order.find? (fun id => after.backward.contains id) with _ | meet
    · have unmet := find?_eq_none.mp search
      have still : Apart store seed sinks (nextForth + nextBack) := by
        intro length short joined
        obtain ⟨id, near, far⟩ := shared_of_joined joined short
        have inForward := (standing.forward.known id).mpr near
        have inBackward := (standing.backward.known id).mpr far
        rw [← ForwardSide.tabled.contains_eq] at inForward
        rw [← BackwardSide.tabled.contains_eq] at inBackward
        refine unmet id ?_ inBackward
        rw [standing.forwardSound.ordered]
        exact (after.forward.hops.keyed id).mpr inForward
      obtain ⟨result, ran, answers⟩ := ih standing still (by omega)
      refine ⟨result, ran, ?_⟩
      rwa [levels, show forth + back + 1 + rounds = forth + back + (rounds + 1) by omega] at answers
    · have inBackward := find?_some search
      have inForward : after.forward.contains meet = true := by
        have listed := mem_of_find?_eq_some search
        rw [standing.forwardSound.ordered] at listed
        exact (after.forward.hops.keyed meet).mp listed
      have least (other : Nat) (joined : Joined (flowStep store) {seed.id} (sinkSet store sinks) other) :
          nextForth + nextBack ≤ other := by
        by_contra shorter
        exact apart other (by omega) joined
      obtain ⟨flow, flows, size, stitched⟩ :=
        standing.stitch least (by omega) inForward inBackward (by omega : _ ≤ fuel) maxHops
      refine ⟨_, stitched, ?_⟩
      split
      · rename_i fits
        exact .found flows fits fun length joined => by
          have bound := least length joined
          omega
      · rename_i long
        exact .missing fun length joined => .inr (by
          have bound := least length joined
          omega)

/-- The backward side with its front holds the listed sinks that exist. -/
structure SinksAdded (store : GraphStore) (listed : List String) (reached : BackwardSide × List Node) : Prop where
  links : ∀ id, reached.1.links.get id = if id ∈ listed ∧ (store.nodeById id).isSome then some none else none
  ids : ∀ id, idsOf reached.2 id ↔ id ∈ listed ∧ (store.nodeById id).isSome = true
  stored : ∀ node ∈ reached.2, store.nodeById node.id = some node
  nodes : ∀ id, id ∈ listed → (store.nodeById id).isSome = true → reached.1.nodes id = store.nodeById id

section Sinks

variable {listed : List String} {reached : BackwardSide × List Node} {last : String}

/-- A sink that does not exist is passed over. -/
theorem SinksAdded.missing (added : SinksAdded store listed reached) (found : store.nodeById last = none) :
    SinksAdded store (listed ++ [last]) reached := by
  refine ⟨fun id => ?_, fun id => ?_, added.stored, fun id member present => ?_⟩
  · rw [added.links id]
    by_cases same : id = last
    · simp [same, found]
    · simp [same]
  · rw [added.ids id]
    by_cases same : id = last
    · simp [same, found]
    · simp [same]
  · by_cases same : id = last
    · rw [same, found] at present
      cases present
    · exact added.nodes id (by simpa [same] using member) present

/-- A sink that is listed again is passed over. -/
theorem SinksAdded.again (added : SinksAdded store listed reached) (known : reached.1.contains last = true) :
    SinksAdded store (listed ++ [last]) reached := by
  have old : last ∈ listed := by
    simp only [BackwardSide.contains, InsertionMap.containsKey, added.links last] at known
    by_contra fresh
    simp [fresh] at known
  have same (id : String) : id ∈ listed ++ [last] ↔ id ∈ listed := by
    simp only [mem_append, mem_singleton, or_iff_left_iff_imp]
    rintro rfl
    exact old
  obtain ⟨links, ids, stored, nodes⟩ := added
  constructor <;> simpa only [same]

/-- A new sink that exists joins the links, the nodes and the front. -/
theorem SinksAdded.join {node : Node} (added : SinksAdded store listed reached)
    (found : store.nodeById last = some node) : SinksAdded store (listed ++ [last])
      (⟨reached.1.links.insert last none, Function.update reached.1.nodes last (some node)⟩, reached.2 ++ [node]) := by
  have nodeId : node.id = last := GraphStore.nodeById_id found
  refine ⟨fun id => ?_, fun id => ?_, fun other member => ?_, fun id member present => ?_⟩
  · by_cases same : id = last
    · simp [same, found]
    · simp [InsertionMap.get_insert_ne same, added.links id, same]
  · have earlier := added.ids id
    simp only [idsOf] at earlier ⊢
    by_cases same : id = last
    · simp [same, found, nodeId]
    · simp [same, nodeId, earlier]
  · rcases mem_append.mp member with old | new
    · exact added.stored other old
    · rw [mem_singleton.mp new, nodeId]
      exact found
  · by_cases same : id = last
    · simp [same, found]
    · simp only [Function.update_of_ne same]
      exact added.nodes id (by simpa [same] using member) present

/-- The backward side starts with the sinks that exist, each once. -/
theorem addSinks_start (store : GraphStore) (listed : List String) :
    SinksAdded store listed (listed.foldl (BackwardSide.addSink store) (⟨InsertionMap.empty, fun _ => none⟩, [])) := by
  induction listed using reverseRecOn with
  | nil => constructor <;> simp [idsOf]
  | append_singleton listed last added =>
    rw [foldl_append, foldl_cons, foldl_nil, BackwardSide.addSink]
    rcases found : store.nodeById last with _ | node
    · exact added.missing found
    · dsimp only
      split
      · rename_i known
        exact added.again known
      · exact added.join found

end Sinks

/-- The walk starts between the seed and the sinks. -/
theorem TwoEnds.Stand.start (sinks : List String) (seedStored : store.nodeById seed.id = some seed) :
    let (backward, frontB) := sinks.foldl (BackwardSide.addSink store) (⟨InsertionMap.empty, fun _ => none⟩, [])
    TwoEnds.Stand store seed sinks 0 0
      ⟨⟨[seed.id], InsertionMap.empty.insert seed.id ⟨none, none, seed⟩⟩, backward, [seed], frontB⟩ := by
  obtain ⟨links, ids, stored, nodes⟩ := addSinks_start store sinks
  generalize sinks.foldl (BackwardSide.addSink store) (⟨InsertionMap.empty, fun _ => none⟩, []) = reached at *
  have member (id : String) : id ∈ sinkSet store sinks ↔ id ∈ sinks ∧ (store.nodeById id).isSome = true := by
    simp [sinkSet, GraphStore.Exists, Option.isSome_iff_exists]
  refine ⟨.start ?_ ?_ ?_, Side.start ?_ ?_ ?_, ⟨?_, ?_, ?_⟩, ?_, ?_, stored⟩
  · intro id begun
    rw [Set.mem_singleton_iff.mp begun]
    simp [Parent.parents]
  · intro id other
    have differs : id ≠ seed.id := other
    simp [Parent.parents, InsertionMap.get_insert_ne differs]
  · intro id
    simp [idsOf]
  · intro id begun
    simp [BackwardSide.parents, links id, (member id).mp begun]
  · intro id other
    have absent : ¬ (id ∈ sinks ∧ (store.nodeById id).isSome = true) := fun listed => other ((member id).mpr listed)
    simp only [BackwardSide.parents, links id, if_neg absent, Option.map_none]
  · exact fun id => (ids id).trans (member id).symm
  · rw [InsertionMap.keys_insert_fresh InsertionMap.get_empty]
    rfl
  · exact InsertionMap.get_insert_self
  · intro id hop found
    rw [InsertionMap.get_insert] at found
    split at found
    · rename_i same
      obtain rfl := Option.some.inj found
      exact ⟨by rw [same]; exact seedStored, fun before begun => by cases begun⟩
    · cases found
  · intro id link found
    rw [links id] at found
    split at found
    · rename_i listed
      obtain rfl := Option.some.inj found
      exact ⟨Option.isSome_iff_exists.mp listed.2, nodes id listed.1 listed.2, fun next edge begun => by cases begun⟩
    · cases found
  · intro node among
    rw [mem_singleton.mp among]
    exact seedStored

/-- The walk from both ends finds a flow exactly when one fits the hops, and the flow that it finds is shortest. -/
theorem bidirectional_walk_shortest (store : GraphStore) (seed : Node) (sinks : List String) (maxHops fuel : Nat)
    (small : store.nodes.length ≤ directedVisitCap) (seedStored : store.nodeById seed.id = some seed)
    (notSink : seed.id ∉ sinks) (enough : maxHops + 3 ≤ fuel) :
    ∃ result, walkBidirectional store fuel seed sinks maxHops = some result ∧
      (result.isSome = true ↔ ∃ path, SinkPath store seed.id sinks path ∧ path.length ≤ maxHops) ∧
      ∀ steps, result = some steps → SinkFlow store seed sinks steps ∧
        ∀ path, SinkPath store seed.id sinks path → steps.length ≤ path.length := by
  have path_joined {path : List String} (leads : SinkPath store seed.id sinks path) :
      ∃ length, path.length = length + 1 ∧ Joined (flowStep store) {seed.id} (sinkSet store sinks) length := by
    rcases path with _ | ⟨first, rest⟩
    · have begins := leads.begins
      cases begins
    · exact ⟨rest.length, rfl, joined_iff_path.mpr ⟨_, leads, rfl⟩⟩
  have apart : Apart store seed sinks (0 + 0) := by
    rintro length short ⟨last, ⟨listed, -⟩, walk⟩
    obtain rfl := Nat.le_zero.mp short
    cases walk with
    | here begun => exact notSink (Set.mem_singleton_iff.mp begun ▸ listed)
  have answered : ∃ result, walkBidirectional store fuel seed sinks maxHops = some result ∧
      Answers store seed sinks maxHops (max (maxHops - 1) 1) result := by
    have standing := TwoEnds.Stand.start sinks seedStored
    have ids := (addSinks_start store sinks).ids
    simp only [walkBidirectional, if_neg notSink]
    generalize sinks.foldl (BackwardSide.addSink store) (⟨InsertionMap.empty, fun _ => none⟩, []) = reached at *
    obtain ⟨backward, frontB⟩ := reached
    dsimp only at standing ids ⊢
    rcases frontB with _ | ⟨first, rest⟩
    · refine ⟨none, rfl, .missing ?_⟩
      rintro length ⟨last, ⟨listed, present⟩, -⟩
      have begun := (ids last).mpr ⟨listed, Option.isSome_iff_exists.mpr present⟩
      simp [idsOf] at begun
    · simp only [isEmpty_cons, Bool.false_eq_true, if_false]
      have ran := standing.run small fuel maxHops (max (maxHops - 1) 1) apart (by omega)
      rwa [show 0 + 0 + max (maxHops - 1) 1 = max (maxHops - 1) 1 by omega] at ran
  obtain ⟨result, walked, answers⟩ := answered
  refine ⟨result, walked, ?_⟩
  cases answers with
  | @found flow flows fits least =>
    refine ⟨⟨fun _ => ⟨flow.map FlowStep.id, flows.path, by rw [length_map]; exact fits⟩, fun _ => rfl⟩, ?_⟩
    rintro steps same
    obtain rfl := Option.some.inj same
    refine ⟨flows, fun path leads => ?_⟩
    obtain ⟨length, size, joined⟩ := path_joined leads
    rw [size]
    exact least length joined
  | missing apart =>
    refine ⟨⟨fun found => (by cases found), ?_⟩, fun steps same => (by cases same)⟩
    rintro ⟨path, leads, short⟩
    obtain ⟨length, size, joined⟩ := path_joined leads
    have beyond := apart length joined
    omega

end Search

section Example

/-- Calls that fork. -/
theorem forked_calls_shortest : ∃ result,
    walkBidirectional forkedCalls 15 (bareNode "a" .function) ["d", "missing", "d"] 12 = some result ∧
      (result.isSome = true ↔ ∃ path, SinkPath forkedCalls "a" ["d", "missing", "d"] path ∧ path.length ≤ 12) ∧
      ∀ steps, result = some steps → SinkFlow forkedCalls (bareNode "a" .function) ["d", "missing", "d"] steps ∧
        ∀ path, SinkPath forkedCalls "a" ["d", "missing", "d"] path → steps.length ≤ path.length :=
  bidirectional_walk_shortest forkedCalls (bareNode "a" .function) ["d", "missing", "d"] 12 15 (by decide) (by decide)
    (by decide) (by decide)

end Example

end Codegraph.Graph
