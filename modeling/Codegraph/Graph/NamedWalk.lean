import Codegraph.Graph.NamedFlow
import Codegraph.Library.Folds

/- This file shows which routes the named walk ends with. -/

namespace Codegraph.Graph
open Codegraph.Core InsertionMaps ParentChains List

/-- Of two routes of one length, the better ends on fewer unnamed hops, or on as many and passes more named symbols. -/
def Route.Better (first second : Route) : Prop :=
  first.streak < second.streak ∨ first.streak = second.streak ∧ second.named ≤ first.named

/-- A route beats another when it is shorter, or as long and better. -/
def Route.Beats (first second : Route) : Prop :=
  first.depth < second.depth ∨ first.depth = second.depth ∧ first.Better second

theorem Route.Better.trans {first second third : Route} (one : first.Better second) (two : second.Better third) :
    first.Better third := by
  simp only [Route.Better] at *
  omega

theorem Route.Beats.refl (route : Route) : route.Beats route := .inr ⟨rfl, .inr ⟨rfl, le_rfl⟩⟩

theorem Route.Beats.trans {first second third : Route} (one : first.Beats second) (two : second.Beats third) :
    first.Beats third := by
  rcases one with shorter | ⟨same, better⟩
  · rcases two with further | ⟨level, -⟩
    · exact .inl (shorter.trans further)
    · exact .inl (level ▸ shorter)
  · rcases two with further | ⟨level, best⟩
    · exact .inl (same ▸ further)
    · exact .inr ⟨same.trans level, better.trans best⟩

@[simp] theorem Route.extend_depth (route : Route) (named : List String) (node : Node) :
    (route.extend named node).depth = route.depth + 1 := rfl

/-- A prior route is kept exactly when it beats the rival, unless it is the longer one. -/
theorem Route.keeps_iff {prior rival : Route} (below : prior.depth ≤ rival.depth) :
    prior.keeps rival = true ↔ prior.Beats rival := by
  simp only [Route.keeps, Route.Beats, Route.Better, Bool.or_eq_true, Bool.and_eq_true, decide_eq_true_eq, gt_iff_lt]
  omega

/-- A prior route is replaced only by a better one of its own length. -/
theorem Route.better_of_not_keeps {prior rival : Route} (replaced : ¬ prior.keeps rival = true) :
    prior.depth = rival.depth ∧ rival.Better prior := by
  simp only [Route.keeps, Bool.or_eq_true, Bool.and_eq_true, decide_eq_true_eq, gt_iff_lt] at replaced
  simp only [Route.Better]
  omega

section Walk

variable {store : GraphStore} {seed : Node} {named : List String} {maxHops maxBridge : Nat}

/-- The nodes that the walk has read. -/
def NamedWalk.visited (walk : NamedWalk) : List String := walk.queue.take walk.head

/-- The nodes that the walk has read and expanded. -/
def NamedWalk.Expanded (maxHops : Nat) (walk : NamedWalk) (id : String) : Prop :=
  id ∈ walk.visited ∧ ∃ route, walk.routes id = some route ∧ route.depth + 1 < maxHops

def NamedWalk.depth (walk : NamedWalk) (id : String) : Nat := ((walk.routes id).map Route.depth).getD 0

/-- A node past the seed was reached over a flow edge from an expanded node, whose route its own route extends. -/
def NamedWalk.Reaches (store : GraphStore) (named : List String) (maxHops maxBridge : Nat) (walk : NamedWalk)
    (id : String) (hop : Hop) : Prop :=
  ∃ before row route, hop = ⟨some before, some row.edge, row.node⟩ ∧ row ∈ callees store before ∧
    isFlowEdge row.edge.kind = true ∧ row.node.id = id ∧ before ∈ walk.visited ∧ walk.routes before = some route ∧
    route.depth + 1 < maxHops ∧ walk.routes id = some (route.extend named row.node) ∧
    (route.extend named row.node).streak ≤ maxBridge

/-- A sound walk has a hop and a route for the queued nodes, which wait in the order of their depths. -/
structure NamedWalk.Sound (store : GraphStore) (seed : Node) (named : List String) (maxHops maxBridge : Nat)
    (walk : NamedWalk) : Prop where
  queued : ∀ id, id ∈ walk.queue ↔ ∃ route, walk.routes id = some route
  hopped : ∀ id, id ∈ walk.queue ↔ ∃ hop, walk.parent.get id = some hop
  distinct : walk.queue.Nodup
  known : ∀ id ∈ walk.queue, id = seed.id ∨ store.Exists id
  seedHop : walk.parent.get seed.id = some ⟨none, none, seed⟩
  seedRoute : walk.routes seed.id = some (Route.start seed named)
  reaches : ∀ id hop, id ≠ seed.id → walk.parent.get id = some hop → walk.Reaches store named maxHops maxBridge id hop
  sorted : walk.queue.Pairwise fun first second => walk.depth first ≤ walk.depth second
  within : walk.head ≤ walk.queue.length

/-- A walk grows when what it read keeps its routes and hops, and the other routes only get better. -/
structure NamedWalk.Grows (before after : NamedWalk) : Prop where
  queue : before.queue <+: after.queue
  head : before.head ≤ after.head
  final : ∀ id ∈ before.visited, after.routes id = before.routes id ∧ after.parent.get id = before.parent.get id
  improves : ∀ id route, before.routes id = some route → ∃ better, after.routes id = some better ∧ better.Beats route

theorem NamedWalk.visited_mem {walk : NamedWalk} {id : String} (read : id ∈ walk.visited) : id ∈ walk.queue :=
  mem_of_mem_take read

theorem NamedWalk.Grows.refl (walk : NamedWalk) : walk.Grows walk :=
  ⟨prefix_rfl, le_rfl, fun _ _ => ⟨rfl, rfl⟩, fun _ route found => ⟨route, found, .refl route⟩⟩

theorem NamedWalk.Grows.visited {before after : NamedWalk} (grows : before.Grows after)
    (within : before.head ≤ before.queue.length) {id : String} (read : id ∈ before.visited) : id ∈ after.visited := by
  obtain ⟨more, whole⟩ := grows.queue
  have early : before.queue.take before.head = after.queue.take before.head := by
    rw [← whole, take_append_of_le_length within]
  rw [NamedWalk.visited, early] at read
  exact take_subset_take_left _ grows.head read

theorem NamedWalk.Grows.trans {first second third : NamedWalk} (one : first.Grows second) (two : second.Grows third)
    (within : first.head ≤ first.queue.length) : first.Grows third := by
  refine ⟨one.queue.trans two.queue, one.head.trans two.head, ?_, ?_⟩
  · intro id read
    obtain ⟨route, hop⟩ := one.final id read
    obtain ⟨laterRoute, laterHop⟩ := two.final id (one.visited within read)
    exact ⟨laterRoute.trans route, laterHop.trans hop⟩
  · intro id route found
    obtain ⟨better, held, beats⟩ := one.improves id route found
    obtain ⟨best, last, further⟩ := two.improves id better held
    exact ⟨best, last, further.trans beats⟩

theorem NamedWalk.depth_of {walk : NamedWalk} {id : String} {route : Route} (found : walk.routes id = some route) :
    walk.depth id = route.depth := by simp [NamedWalk.depth, found]

/-- While a node is expanded, it is the deepest that was read, and nothing lies more than one level below it. -/
structure NamedWalk.Turning (store : GraphStore) (seed : Node) (named : List String) (maxHops maxBridge : Nat)
    (visited : List String) (id : String) (at_ : Route) (walk : NamedWalk) : Prop where
  sound : walk.Sound store seed named maxHops maxBridge
  read : walk.visited = visited
  current : id ∈ visited
  route : walk.routes id = some at_
  shallow : ∀ other ∈ visited, walk.depth other ≤ at_.depth
  ceiling : ∀ other ∈ walk.queue, walk.depth other ≤ at_.depth + 1

section Turn

variable {walk : NamedWalk} {visited : List String} {id : String} {at_ : Route} {row : NodeEdge}

/-- What waits behind the node that is read lies no higher than it. -/
theorem NamedWalk.Turning.spans (turning : walk.Turning store seed named maxHops maxBridge visited id at_) :
    ∀ first ∈ walk.queue.drop walk.head, ∀ second ∈ walk.queue, walk.depth second ≤ walk.depth first + 1 := by
  intro first waits second among
  have seen : id ∈ walk.queue.take walk.head := by
    have current := turning.current
    rwa [← turning.read] at current
  have sorted := turning.sound.sorted
  rw [← take_append_drop walk.head walk.queue, pairwise_append] at sorted
  have above := sorted.2.2 id seen first waits
  rw [NamedWalk.depth_of turning.route] at above
  have bound := turning.ceiling second among
  omega

/-- Taking a callee changes its route and its hop, and the queue only where it did not hold the callee. -/
structure NamedWalk.Takes (walk after : NamedWalk) (id : String) (row : NodeEdge) (route : Route) : Prop where
  head : after.head = walk.head
  routes : after.routes = Function.update walk.routes row.node.id (some route)
  parent : after.parent = walk.parent.insert row.node.id ⟨some id, some row.edge, row.node⟩
  queue : after.queue = walk.queue ∧ row.node.id ∈ walk.queue ∧ walk.depth row.node.id = route.depth ∨
    after.queue = walk.queue ++ [row.node.id] ∧ row.node.id ∉ walk.queue

section Take

variable {taken : NamedWalk} {route : Route} {other : String}

section

variable (takes : walk.Takes taken id row route)
include takes

theorem NamedWalk.Takes.route_self : taken.routes row.node.id = some route := by
  rw [takes.routes, Function.update_self]

theorem NamedWalk.Takes.route_of_ne (differs : other ≠ row.node.id) : taken.routes other = walk.routes other := by
  rw [takes.routes, Function.update_of_ne differs]

theorem NamedWalk.Takes.hop_self : taken.parent.get row.node.id = some ⟨some id, some row.edge, row.node⟩ := by
  rw [takes.parent, InsertionMap.get_insert_self]

theorem NamedWalk.Takes.hop_of_ne (differs : other ≠ row.node.id) : taken.parent.get other = walk.parent.get other := by
  rw [takes.parent, InsertionMap.get_insert_ne differs]

theorem NamedWalk.Takes.mem_queue : other ∈ taken.queue ↔ other ∈ walk.queue ∨ other = row.node.id := by
  rcases takes.queue with ⟨same, inside, -⟩ | ⟨longer, -⟩
  · rw [same]
    constructor
    · exact .inl
    · rintro (old | rfl)
      · exact old
      · exact inside
  · simp [longer]

theorem NamedWalk.Takes.depth_self : taken.depth row.node.id = route.depth :=
  NamedWalk.depth_of takes.route_self

theorem NamedWalk.Takes.depth_of_ne (differs : other ≠ row.node.id) : taken.depth other = walk.depth other := by
  rw [NamedWalk.depth, takes.route_of_ne differs, NamedWalk.depth]

/-- A callee that was waiting keeps the depth that it had. -/
theorem NamedWalk.Takes.depth_of_mem (old : other ∈ walk.queue) : taken.depth other = walk.depth other := by
  by_cases same : other = row.node.id
  · rcases takes.queue with ⟨-, -, level⟩ | ⟨-, absent⟩
    · rw [same, takes.depth_self, level]
    · exact absurd (same ▸ old) absent
  · exact takes.depth_of_ne same

theorem NamedWalk.Takes.visited_eq (within : walk.head ≤ walk.queue.length) : taken.visited = walk.visited := by
  rw [NamedWalk.visited, takes.head, NamedWalk.visited]
  rcases takes.queue with ⟨same, -⟩ | ⟨longer, -⟩
  · rw [same]
  · rw [longer, take_append_of_le_length within]

theorem NamedWalk.Takes.distinct (distinct : walk.queue.Nodup) : taken.queue.Nodup := by
  rcases takes.queue with ⟨same, -⟩ | ⟨longer, absent⟩
  · rw [same]
    exact distinct
  · rw [longer, nodup_append]
    refine ⟨distinct, nodup_singleton _, ?_⟩
    rintro first old second new rfl
    exact absent (mem_singleton.mp new ▸ old)

/-- A callee joins the end of the queue, so the queue stays sorted when no node in it lies deeper. -/
theorem NamedWalk.Takes.sorted (sorted : walk.queue.Pairwise fun first second => walk.depth first ≤ walk.depth second)
    (ceiling : ∀ other ∈ walk.queue, walk.depth other ≤ route.depth) :
    taken.queue.Pairwise fun first second => taken.depth first ≤ taken.depth second := by
  have old : walk.queue.Pairwise fun first second => taken.depth first ≤ taken.depth second :=
    sorted.imp_of_mem fun {first second} one two below => by
      rw [takes.depth_of_mem one, takes.depth_of_mem two]
      exact below
  rcases takes.queue with ⟨same, -⟩ | ⟨longer, -⟩
  · rw [same]
    exact old
  · rw [longer, pairwise_append]
    refine ⟨old, pairwise_singleton _ _, ?_⟩
    intro first one second two
    rw [mem_singleton.mp two, takes.depth_self, takes.depth_of_mem one]
    exact ceiling first one

theorem NamedWalk.Takes.within (within : walk.head ≤ walk.queue.length) : taken.head ≤ taken.queue.length := by
  rw [takes.head]
  rcases takes.queue with ⟨same, -⟩ | ⟨longer, -⟩
  · rw [same]
    exact within
  · rw [longer, length_append]
    omega

end

/-- The taken node was reached over the edge that it was taken for, and the others as they were before. -/
theorem NamedWalk.Takes.reaches {hop : Hop} (takes : walk.Takes taken id row (at_.extend named row.node))
    (sound : walk.Sound store seed named maxHops maxBridge) (unread : row.node.id ∉ walk.visited)
    (current : id ∈ walk.visited) (found : walk.routes id = some at_) (deep : at_.depth + 1 < maxHops)
    (listed : row ∈ callees store id) (flows : isFlowEdge row.edge.kind = true)
    (fits : (at_.extend named row.node).streak ≤ maxBridge) (past : other ≠ seed.id)
    (hops : taken.parent.get other = some hop) : taken.Reaches store named maxHops maxBridge other hop := by
  have keeps {read : String} (seen : read ∈ walk.visited) :
      read ∈ taken.visited ∧ taken.routes read = walk.routes read := by
    rw [takes.visited_eq sound.within]
    exact ⟨seen, takes.route_of_ne fun same => unread (same ▸ seen)⟩
  by_cases same : other = row.node.id
  · rw [same, takes.hop_self] at hops
    obtain rfl := Option.some.inj hops
    obtain ⟨seen, held⟩ := keeps current
    exact ⟨id, row, at_, rfl, listed, flows, same.symm, seen, held.trans found, deep, same ▸ takes.route_self, fits⟩
  · rw [takes.hop_of_ne same] at hops
    obtain ⟨before, from_, route, made, inside, flow, reached, read, held, short, extended, bridged⟩ :=
      sound.reaches other hop past hops
    obtain ⟨seen, keptRoute⟩ := keeps read
    exact ⟨before, from_, route, made, inside, flow, reached, seen, keptRoute.trans held, short,
      (takes.route_of_ne same).trans extended, bridged⟩

end Take

/-- Taking a better route to a node that was not read keeps the walk in its turn. -/
theorem NamedWalk.Turning.take {taken : NamedWalk}
    (turning : walk.Turning store seed named maxHops maxBridge visited id at_)
    (takes : walk.Takes taken id row (at_.extend named row.node)) (deep : at_.depth + 1 < maxHops)
    (listed : row ∈ callees store id) (flows : isFlowEdge row.edge.kind = true)
    (fits : (at_.extend named row.node).streak ≤ maxBridge) (unread : row.node.id ∉ visited)
    (past : row.node.id ≠ seed.id) : taken.Turning store seed named maxHops maxBridge visited id at_ := by
  obtain ⟨sound, rfl, current, route, shallow, ceiling⟩ := turning
  have differs {other : String} (seen : other ∈ walk.visited) : other ≠ row.node.id := fun same =>
    unread (same ▸ seen)
  refine ⟨⟨?_, ?_, takes.distinct sound.distinct, ?_, ?_, ?_, ?_, takes.sorted sound.sorted ceiling,
    takes.within sound.within⟩, takes.visited_eq sound.within, current, ?_, ?_, ?_⟩
  · intro other
    rw [takes.mem_queue, sound.queued]
    by_cases same : other = row.node.id
    · simp [same, takes.route_self]
    · simp [same, takes.route_of_ne same]
  · intro other
    rw [takes.mem_queue, sound.hopped]
    by_cases same : other = row.node.id
    · simp [same, takes.hop_self]
    · simp [same, takes.hop_of_ne same]
  · intro other waiting
    rcases takes.mem_queue.mp waiting with old | rfl
    · exact sound.known other old
    · obtain ⟨-, -, found⟩ := callees_row listed
      have same : row.node.id = row.edge.target := GraphStore.nodeById_id found
      exact .inr ⟨row.node, same ▸ found⟩
  · rw [takes.hop_of_ne past.symm]
    exact sound.seedHop
  · rw [takes.route_of_ne past.symm]
    exact sound.seedRoute
  · intro other hop beyond hops
    exact takes.reaches sound unread current route deep listed flows fits beyond hops
  · rw [takes.route_of_ne (differs current)]
    exact route
  · intro other seen
    rw [takes.depth_of_ne (differs seen)]
    exact shallow other seen
  · intro other waiting
    rcases takes.mem_queue.mp waiting with old | rfl
    · rw [takes.depth_of_mem old]
      exact ceiling other old
    · rw [takes.depth_self, Route.extend_depth]

/-- A node that was taken has the new route, and the nodes that were read keep theirs. -/
theorem NamedWalk.Turning.take_grows {taken : NamedWalk}
    (turning : walk.Turning store seed named maxHops maxBridge visited id at_)
    (takes : walk.Takes taken id row (at_.extend named row.node)) (unread : row.node.id ∉ visited)
    (beaten : ∀ prior, walk.routes row.node.id = some prior → (at_.extend named row.node).Beats prior) :
    walk.Grows taken := by
  refine ⟨?_, takes.head.ge, fun other seen => ?_, fun other prior found => ?_⟩
  · rcases takes.queue with ⟨same, -⟩ | ⟨longer, -⟩
    · rw [same]
    · rw [longer]
      exact prefix_append _ _
  · have differs : other ≠ row.node.id := fun same => unread (turning.read ▸ same ▸ seen)
    exact ⟨takes.route_of_ne differs, takes.hop_of_ne differs⟩
  · by_cases same : other = row.node.id
    · rw [same] at found ⊢
      exact ⟨_, takes.route_self, beaten prior found⟩
    · exact ⟨prior, (takes.route_of_ne same).trans found, .refl prior⟩

/-- A rival is answered when the walk holds a route to its node that beats it. -/
def NamedWalk.Answers (named : List String) (maxBridge : Nat) (at_ : Route) (row : NodeEdge) (walk : NamedWalk) :
    Prop :=
  isFlowEdge row.edge.kind = true → (at_.extend named row.node).streak ≤ maxBridge →
    ∃ route, walk.routes row.node.id = some route ∧ route.Beats (at_.extend named row.node)

theorem NamedWalk.Grows.answers {before after : NamedWalk} (grows : before.Grows after)
    (answers : before.Answers named maxBridge at_ row) : after.Answers named maxBridge at_ row := by
  intro flows fits
  obtain ⟨route, held, beats⟩ := answers flows fits
  obtain ⟨better, later, further⟩ := grows.improves _ _ held
  exact ⟨better, later, further.trans beats⟩

section

variable (turning : walk.Turning store seed named maxHops maxBridge visited id at_)
include turning

/-- A callee that was not reached yet joins the queue with its first route. -/
theorem NamedWalk.Turning.meet_new
    (deep : at_.depth + 1 < maxHops) (listed : row ∈ callees store id) (flows : isFlowEdge row.edge.kind = true)
    (fits : (at_.extend named row.node).streak ≤ maxBridge) (held : walk.routes row.node.id = none) :
    let after := { walk with queue := walk.queue ++ [row.node.id] }.take id row (at_.extend named row.node)
    after.Turning store seed named maxHops maxBridge visited id at_ ∧ walk.Grows after ∧
      after.Answers named maxBridge at_ row := by
  have absent : row.node.id ∉ walk.queue := by
    intro waiting
    obtain ⟨route, found⟩ := (turning.sound.queued _).mp waiting
    rw [held] at found
    cases found
  have unread : row.node.id ∉ visited := fun seen => absent (NamedWalk.visited_mem (turning.read ▸ seen))
  have past : row.node.id ≠ seed.id := by
    intro same
    rw [same, turning.sound.seedRoute] at held
    cases held
  have takes : walk.Takes
    ({ walk with queue := walk.queue ++ [row.node.id] }.take id row (at_.extend named row.node)) id
      row (at_.extend named row.node) := ⟨rfl, rfl, rfl, .inr ⟨rfl, absent⟩⟩
  refine ⟨turning.take takes deep listed flows fits unread past, turning.take_grows takes unread ?_,
    fun _ _ => ⟨_, takes.route_self, .refl _⟩⟩
  intro prior found
  rw [held] at found
  cases found

/-- A callee whose route is replaced lies one level below the node that is read, so it was not read itself. -/
theorem NamedWalk.Turning.meet_better
    (deep : at_.depth + 1 < maxHops) (listed : row ∈ callees store id) (flows : isFlowEdge row.edge.kind = true)
    (fits : (at_.extend named row.node).streak ≤ maxBridge) {prior : Route}
    (held : walk.routes row.node.id = some prior) (replaced : ¬ prior.keeps (at_.extend named row.node) = true) :
    let after := walk.take id row (at_.extend named row.node)
    after.Turning store seed named maxHops maxBridge visited id at_ ∧ walk.Grows after ∧
      after.Answers named maxBridge at_ row := by
  have waiting : row.node.id ∈ walk.queue := (turning.sound.queued _).mpr ⟨prior, held⟩
  obtain ⟨level, better⟩ := Route.better_of_not_keeps replaced
  rw [Route.extend_depth] at level
  have unread : row.node.id ∉ visited := by
    intro seen
    have bound := turning.shallow _ seen
    rw [NamedWalk.depth_of held] at bound
    omega
  have past : row.node.id ≠ seed.id := by
    intro same
    have seedShallow : walk.depth seed.id = 0 := NamedWalk.depth_of turning.sound.seedRoute
    rw [same] at held
    have top := NamedWalk.depth_of held
    omega
  have sameLevel : walk.depth row.node.id = (at_.extend named row.node).depth := (NamedWalk.depth_of held).trans level
  have takes : walk.Takes (walk.take id row (at_.extend named row.node)) id row (at_.extend named row.node) :=
    ⟨rfl, rfl, rfl, .inl ⟨rfl, waiting, sameLevel⟩⟩
  refine ⟨turning.take takes deep listed flows fits unread past, turning.take_grows takes unread ?_,
    fun _ _ => ⟨_, takes.route_self, .refl _⟩⟩
  intro other found
  rw [held] at found
  obtain rfl := Option.some.inj found
  exact .inr ⟨level.symm, better⟩

/-- Meeting a callee keeps the turn, and afterwards the callee's rival route is answered. -/
theorem NamedWalk.Turning.meet (deep : at_.depth + 1 < maxHops) (listed : row ∈ callees store id) :
    (walk.meet named maxBridge id at_ row).Turning store seed named maxHops maxBridge visited id at_ ∧
      walk.Grows (walk.meet named maxBridge id at_ row) ∧
      (walk.meet named maxBridge id at_ row).Answers named maxBridge at_ row := by
  simp only [NamedWalk.meet]
  rcases flows : isFlowEdge row.edge.kind with _ | _
  · refine ⟨turning, .refl walk, fun flow => ?_⟩
    rw [flows] at flow
    cases flow
  simp only [Bool.not_true, Bool.false_eq_true, if_false]
  split
  · rename_i long
    exact ⟨turning, .refl walk, fun _ fits => absurd fits (by omega)⟩
  rename_i short
  have fits : (at_.extend named row.node).streak ≤ maxBridge := by omega
  rcases held : walk.routes row.node.id with _ | prior
  · exact turning.meet_new deep listed flows fits held
  · dsimp only
    have waiting : row.node.id ∈ walk.queue := (turning.sound.queued _).mpr ⟨prior, held⟩
    have below : prior.depth ≤ (at_.extend named row.node).depth := by
      have bound := turning.ceiling _ waiting
      rwa [NamedWalk.depth_of held] at bound
    split
    · rename_i kept
      exact ⟨turning, .refl walk, fun _ _ => ⟨prior, held, (Route.keeps_iff below).mp kept⟩⟩
    · rename_i replaced
      exact turning.meet_better deep listed flows fits held replaced

end

end Turn

/-- Between turns the waiting nodes span two levels, and every expanded node has its callees answered. -/
structure NamedWalk.Steady (store : GraphStore) (seed : Node) (named : List String) (maxHops maxBridge : Nat)
    (walk : NamedWalk) : Prop where
  sound : walk.Sound store seed named maxHops maxBridge
  spans : ∀ first ∈ walk.queue.drop walk.head, ∀ second ∈ walk.queue, walk.depth second ≤ walk.depth first + 1
  settled : ∀ id ∈ walk.visited, ∀ route, walk.routes id = some route → route.depth + 1 < maxHops →
    ∀ row ∈ callees store id, walk.Answers named maxBridge route row

section Turns

variable {walk base after : NamedWalk} {id : String} {at_ : Route}

/-- Reading the next node puts the walk into the turn of that node. -/
theorem NamedWalk.Steady.read (steady : walk.Steady store seed named maxHops maxBridge)
    (next : walk.queue[walk.head]? = some id) (found : walk.routes id = some at_) (reached : List String) :
    let base := { walk with head := walk.head + 1, reached := reached }
    base.Turning store seed named maxHops maxBridge (walk.visited ++ [id]) id at_ ∧ walk.Grows base := by
  obtain ⟨sound, spans, -⟩ := steady
  obtain ⟨inside, same⟩ := List.getElem?_eq_some_iff.mp next
  have read : walk.queue.take (walk.head + 1) = walk.visited ++ [id] := by
    rw [take_add_one, next]
    rfl
  have split : walk.queue = walk.visited ++ id :: walk.queue.drop (walk.head + 1) := by
    rw [← same, ← drop_eq_getElem_cons inside, NamedWalk.visited, take_append_drop]
  have grows : walk.Grows { walk with head := walk.head + 1, reached := reached } :=
    ⟨prefix_rfl, Nat.le_succ _, fun _ _ => ⟨rfl, rfl⟩, fun _ route held => ⟨route, held, .refl route⟩⟩
  refine ⟨⟨⟨sound.queued, sound.hopped, sound.distinct, sound.known, sound.seedHop, sound.seedRoute, ?_, sound.sorted,
    inside⟩, read, by simp, found, ?_, ?_⟩, grows⟩
  · intro other hop past held
    obtain ⟨before, row, route, made, listed, flows, named_, seen, rest⟩ := sound.reaches other hop past held
    exact ⟨before, row, route, made, listed, flows, named_, grows.visited sound.within seen, rest⟩
  · intro other seen
    have sorted := sound.sorted
    rw [split, pairwise_append] at sorted
    change walk.depth other ≤ at_.depth
    rw [← NamedWalk.depth_of found]
    rcases mem_append.mp seen with old | new
    · exact sorted.2.2 other old id mem_cons_self
    · rw [mem_singleton.mp new]
  · intro other waiting
    have first : id ∈ walk.queue.drop walk.head := by
      rw [drop_eq_getElem_cons inside, same]
      exact mem_cons_self
    have bound := spans id first other waiting
    rwa [NamedWalk.depth_of found] at bound

/-- Expanding a node answers its callees' rivals. -/
theorem NamedWalk.Turning.expand {visited : List String}
    (turning : base.Turning store seed named maxHops maxBridge visited id at_) :
    let after := base.expand store named maxHops maxBridge id at_
    after.Turning store seed named maxHops maxBridge visited id at_ ∧ base.Grows after ∧ after.head = base.head ∧
      (at_.depth + 1 < maxHops → ∀ row ∈ callees store id, after.Answers named maxBridge at_ row) := by
  simp only [NamedWalk.expand]
  split
  · exact ⟨turning, .refl base, rfl, fun deep => absurd deep (by omega)⟩
  rename_i shallow
  have deep : at_.depth + 1 < maxHops := by omega
  have heads (walk : NamedWalk) (row : NodeEdge) : (walk.meet named maxBridge id at_ row).head = walk.head := by
    simp only [NamedWalk.meet]
    split
    · rfl
    split
    · rfl
    split
    · split <;> rfl
    · rfl
  obtain ⟨⟨turned, grows, head⟩, -, answered⟩ := Folds.foldl_settles (NamedWalk.meet named maxBridge id at_)
    (fun walk => walk.Turning store seed named maxHops maxBridge visited id at_ ∧ base.Grows walk ∧
      walk.head = base.head)
    (fun row walk => walk.Answers named maxBridge at_ row) (callees store id)
    (fun row listed walk holds other answers => (holds.1.meet deep listed).2.1.answers answers)
    (fun row listed walk holds =>
      have met := holds.1.meet deep listed
      ⟨⟨met.1, holds.2.1.trans met.2.1 turning.sound.within, (heads walk row).trans holds.2.2⟩, met.2.2⟩)
    ⟨turning, .refl base, rfl⟩
  exact ⟨turned, grows, head, fun _ => answered⟩

/-- A turn leads from a steady walk to a steady walk. -/
theorem NamedWalk.Steady.turn (steady : walk.Steady store seed named maxHops maxBridge)
    (waiting : walk.head < walk.queue.length) : ∃ after, walk.turn store seed named maxHops maxBridge = some after ∧
      after.Steady store seed named maxHops maxBridge ∧ walk.Grows after ∧ after.head = walk.head + 1 := by
  have next : walk.queue[walk.head]? = some walk.queue[walk.head] := getElem?_eq_getElem waiting
  obtain ⟨at_, found⟩ := (steady.sound.queued _).mp (getElem_mem waiting)
  generalize walk.queue[walk.head] = id at next found
  obtain ⟨turning, begun⟩ := steady.read next found
    (if id ≠ seed.id ∧ id ∈ named then walk.reached ++ [id] else walk.reached)
  obtain ⟨turned, grows, head, answered⟩ := turning.expand
  refine ⟨_, by simp only [NamedWalk.turn, next, found, Option.bind_eq_bind, Option.bind_some]; rfl,
    ⟨turned.sound, turned.spans, ?_⟩, begun.trans grows steady.sound.within, head⟩
  · intro other seen route held short row listed
    rw [turned.read] at seen
    rcases mem_append.mp seen with old | new
    · rw [((begun.trans grows steady.sound.within).final other old).1] at held
      exact (begun.trans grows steady.sound.within).answers (steady.settled other old route held short row listed)
    · obtain rfl := mem_singleton.mp new
      rw [turned.route] at held
      obtain rfl := Option.some.inj held
      exact answered short row listed

/-- The walk starts steady. -/
theorem NamedWalk.Steady.start : (NamedWalk.start seed named).Steady store seed named maxHops maxBridge := by
  have routes (id : String) : (NamedWalk.start seed named).routes id =
      if id = seed.id then some (Route.start seed named) else none := by
    simp only [NamedWalk.start, Function.update_apply]
  have hops (id : String) : (NamedWalk.start seed named).parent.get id =
      if id = seed.id then some ⟨none, none, seed⟩ else none := by
    simp only [NamedWalk.start, InsertionMap.get_insert]
    rfl
  refine ⟨⟨?_, ?_, nodup_singleton _, ?_, ?_, ?_, ?_, pairwise_singleton _ _, Nat.zero_le _⟩, ?_, ?_⟩
  · intro id
    rw [routes]
    by_cases same : id = seed.id <;> simp [NamedWalk.start, same]
  · intro id
    rw [hops]
    by_cases same : id = seed.id <;> simp [NamedWalk.start, same]
  · exact fun id member => .inl (mem_singleton.mp member)
  · rw [hops, if_pos rfl]
  · rw [routes, if_pos rfl]
  · intro id hop past found
    rw [hops, if_neg past] at found
    cases found
  · intro first one second two
    rw [mem_singleton.mp two]
    have top : (NamedWalk.start seed named).depth seed.id = 0 := by simp [NamedWalk.depth, routes, Route.start]
    omega
  · intro id seen
    cases seen

/-- Some turns lead from one walk to another. -/
def NamedWalk.Turns (store : GraphStore) (seed : Node) (named : List String) (maxHops maxBridge : Nat) :
    NamedWalk → NamedWalk → Prop :=
  Relation.ReflTransGen fun walk after =>
    walk.going = true ∧ walk.turn store seed named maxHops maxBridge = some after

theorem NamedWalk.Steady.turns (steady : walk.Steady store seed named maxHops maxBridge)
    (turns : NamedWalk.Turns store seed named maxHops maxBridge walk after) :
    after.Steady store seed named maxHops maxBridge ∧ walk.Grows after := by
  induction turns with
  | refl => exact ⟨steady, .refl walk⟩
  | tail _ turned ih =>
    obtain ⟨held, grows⟩ := ih
    obtain ⟨going, made⟩ := turned
    simp only [NamedWalk.going, Bool.and_eq_true, decide_eq_true_eq] at going
    obtain ⟨next, same, later, further, -⟩ := held.turn going.1
    rw [made] at same
    obtain rfl := Option.some.inj same
    exact ⟨later, grows.trans further steady.sound.within⟩

/-- A queue holds no more than the seed and the stored nodes. -/
theorem NamedWalk.Sound.queue_le (sound : walk.Sound store seed named maxHops maxBridge) :
    walk.queue.length ≤ store.nodes.length + 1 := by
  have inside : walk.queue ⊆ seed.id :: store.nodes.map Node.id := by
    intro id member
    rcases sound.known id member with rfl | present
    · exact mem_cons_self
    · exact mem_cons_of_mem _ (GraphStore.exists_iff.mp present)
  have bound := (subperm_of_subset sound.distinct inside).length_le
  simpa using bound

/-- With a turn for each node that may be queued, the walk ends. -/
theorem NamedWalk.Steady.run (steady : walk.Steady store seed named maxHops maxBridge) (fuel : Nat)
    (enough : store.nodes.length + 2 ≤ fuel + walk.head) :
    ∃ after, NamedWalk.run store seed named maxHops maxBridge fuel walk = some after ∧ after.going = false ∧
      NamedWalk.Turns store seed named maxHops maxBridge walk after := by
  induction fuel generalizing walk with
  | zero =>
    have bound := steady.sound.queue_le
    have within := steady.sound.within
    omega
  | succ fuel ih =>
    rcases going : walk.going with _ | _
    · exact ⟨walk, by simp [NamedWalk.run, going], going, .refl⟩
    have waiting := going
    simp only [NamedWalk.going, Bool.and_eq_true, decide_eq_true_eq] at waiting
    obtain ⟨next, turned, held, -, head⟩ := steady.turn waiting.1
    obtain ⟨after, ran, ended, turns⟩ := ih held (by omega)
    exact ⟨after, by simp only [NamedWalk.run, going, turned, if_true, Option.bind_some, ran], ended,
      .head ⟨going, turned⟩ turns⟩

end Turns

/-- The route along some steps extends a route by their nodes. -/
def Route.along (route : Route) (named : List String) (steps : List FlowStep) : Route :=
  steps.foldl (fun route step => route.extend named step.node) route

/-- The bridge of a run counts its nodes that are not routes. -/
def bridge (run : List FlowStep) : Nat := run.countP fun step => step.node.kind ≠ .route

/-- A named chain leads from the seed to a node without repetition. The route to the node is the route along the chain,
the chain fits the hops, and no run of unnamed nodes on it costs more than the bridge. -/
structure NamedChain (seed : Node) (named : List String) (maxHops maxBridge : Nat) (id : String) (route : Route)
    (steps : List FlowStep) : Prop where
  begins : steps.head? = some ⟨seed, none⟩
  ends : steps.getLast?.map FlowStep.id = some id
  simple : (steps.map FlowStep.id).Nodup
  route : route = (Route.start seed named).along named steps.tail
  fits : steps.length ≤ max maxHops 1
  bridged : ∀ run, run <:+: steps.tail → (∀ step ∈ run, step.id ∉ named) → bridge run ≤ maxBridge

section Chains

variable {walk : NamedWalk} {id : String} {route : Route} {places : List String}

/-- The depth of a node is the number of hops on its chain. -/
theorem NamedWalk.Sound.ranked (sound : walk.Sound store seed named maxHops maxBridge) :
    Ranked (Parent.parents walk.parent) walk.depth := by
  constructor
  · intro id found
    obtain ⟨hop, held, rooted⟩ := Option.map_eq_some_iff.mp found
    by_cases same : id = seed.id
    · rw [same, NamedWalk.depth_of sound.seedRoute]
      rfl
    · obtain ⟨before, row, route, rfl, -⟩ := sound.reaches id hop same held
      cases rooted
  · intro id before found
    obtain ⟨hop, held, linked⟩ := Option.map_eq_some_iff.mp found
    have past : id ≠ seed.id := by
      rintro rfl
      rw [sound.seedHop] at held
      obtain rfl := Option.some.inj held
      cases linked
    obtain ⟨source, row, route, rfl, -, -, -, seen, known, -, extended, -⟩ := sound.reaches id hop past held
    obtain rfl := Option.some.inj linked
    obtain ⟨sourceHop, reached⟩ := (sound.hopped source).mp (NamedWalk.visited_mem seen)
    refine ⟨by simp [Parent.parents, reached], ?_⟩
    rw [NamedWalk.depth_of extended, NamedWalk.depth_of known, Route.extend_depth]

/-- Extending a route counts an unnamed node that is not a route, and a named node ends the streak. -/
theorem Route.extend_streak (node : Node) (unnamed : node.id ∉ named) :
    (route.extend named node).streak = route.streak + if node.kind ≠ .route then 1 else 0 := by
  by_cases kind : node.kind = .route <;> simp [Route.extend, unnamed, kind]

/-- Along the chain of a node its route is extended, and no run of unnamed nodes costs more than the bridge. -/
theorem NamedWalk.Sound.along (sound : walk.Sound store seed named maxHops maxBridge)
    (chain : Chain (Parent.parents walk.parent) id places) (found : walk.routes id = some route) :
    ∃ tail, places.reverse.filterMap (Parent.step walk.parent) = ⟨seed, none⟩ :: tail ∧
      (seed.id :: tail.map FlowStep.id) = places.reverse ∧ route = (Route.start seed named).along named tail ∧
      (∀ run, run <:+ tail → (∀ step ∈ run, step.id ∉ named) → bridge run ≤ route.streak) ∧
      ∀ run, run <:+: tail → (∀ step ∈ run, step.id ∉ named) → bridge run ≤ maxBridge := by
  induction chain generalizing route with
  | @root place held =>
    obtain ⟨hop, stored, rooted⟩ := Option.map_eq_some_iff.mp held
    obtain rfl : place = seed.id := by
      by_contra past
      obtain ⟨before, row, source, rfl, -⟩ := sound.reaches place hop past stored
      cases rooted
    rw [sound.seedRoute] at found
    obtain rfl := Option.some.inj found
    refine ⟨[], by simp [Parent.step, sound.seedHop], by simp, rfl, ?_, ?_⟩
    · intro run ending _
      obtain rfl := suffix_nil.mp ending
      exact Nat.zero_le _
    · intro run inside _
      obtain rfl := infix_nil.mp inside
      exact Nat.zero_le _
  | @link place before places held rest ih =>
    obtain ⟨hop, stored, linked⟩ := Option.map_eq_some_iff.mp held
    have past : place ≠ seed.id := by
      rintro rfl
      rw [sound.seedHop] at stored
      obtain rfl := Option.some.inj stored
      cases linked
    obtain ⟨source, row, earlier, rfl, -, -, same, -, reached, -, extended, fits⟩ :=
      sound.reaches place hop past stored
    obtain rfl := Option.some.inj linked
    rw [found] at extended
    obtain rfl := Option.some.inj extended
    obtain ⟨tail, made, ids, along, ending, inside⟩ := ih reached
    -- A run that ends on the new node is a run that ends on the node before it, and one more.
    have suffixes (run : List FlowStep) (last : run <:+ tail ++ [⟨row.node, some row.edge⟩])
        (unnamed : ∀ step ∈ run, step.id ∉ named) : bridge run ≤ (earlier.extend named row.node).streak := by
      rcases eq_nil_or_concat' run with rfl | ⟨run, final, rfl⟩
      · exact Nat.zero_le _
      obtain ⟨front, whole⟩ := last
      rw [← append_assoc] at whole
      obtain ⟨early, late⟩ := append_inj' whole rfl
      obtain rfl := singleton_inj.mp late
      have bound := ending run ⟨front, early⟩ fun step member => unnamed step (mem_append_left _ member)
      have fresh : row.node.id ∉ named :=
        unnamed ⟨row.node, some row.edge⟩ (mem_append_right _ mem_cons_self)
      rw [Route.extend_streak row.node fresh]
      simp only [bridge, countP_append, countP_singleton, decide_eq_true_eq] at bound ⊢
      omega
    refine ⟨tail ++ [⟨row.node, some row.edge⟩], ?_, ?_, ?_, suffixes, ?_⟩
    · rw [reverse_cons, filterMap_append, made]
      simp [Parent.step, stored]
    · rw [map_append, ← cons_append, ids, reverse_cons]
      simp [FlowStep.id, same]
    · simp only [Route.along, foldl_append, foldl_cons, foldl_nil] at along ⊢
      rw [← along]
    · intro run within unnamed
      rcases infix_concat_iff.mp within with last | early
      · exact (suffixes run last unnamed).trans fits
      · exact inside run early unnamed

/-- Every reached node has a named chain. -/
theorem NamedWalk.Sound.chain (sound : walk.Sound store seed named maxHops maxBridge)
    (found : walk.routes id = some route) {fuel : Nat} (enough : maxHops + 2 ≤ fuel) :
    ∃ steps, chainTo walk.parent fuel id = some steps ∧ NamedChain seed named maxHops maxBridge id route steps := by
  have queued : id ∈ walk.queue := (sound.queued id).mpr ⟨route, found⟩
  obtain ⟨hop, stored⟩ := (sound.hopped id).mp queued
  have present : (Parent.parents walk.parent id).isSome = true := by simp [Parent.parents, stored]
  obtain ⟨places, chain, size⟩ := sound.ranked.chain present
  rw [NamedWalk.depth_of found] at size
  have short : route.depth + 1 ≤ max maxHops 1 := by
    by_cases same : id = seed.id
    · rw [same, sound.seedRoute] at found
      obtain rfl := Option.some.inj found
      exact le_max_right _ _
    · obtain ⟨before, row, earlier, -, -, -, -, -, -, deep, extended, -⟩ := sound.reaches id hop same stored
      rw [found] at extended
      obtain rfl := Option.some.inj extended
      rw [Route.extend_depth]
      omega
  obtain ⟨tail, made, ids, along, -, bridged⟩ := sound.along chain found
  have mapped : (⟨seed, none⟩ :: tail : List FlowStep).map FlowStep.id = places.reverse := ids
  refine ⟨⟨seed, none⟩ :: tail, ?_, rfl, ?_, ?_, along, ?_, bridged⟩
  · rw [chainTo_chain chain (by omega), made]
  · rw [← getLast?_map, mapped, getLast?_reverse, chain.head]
  · rw [mapped, nodup_reverse]
    exact chain.nodup sound.ranked
  · have counted := congrArg length mapped
    rw [length_map, length_reverse, size] at counted
    omega

end Chains

/-- The named walk ends with a named chain to every reached node. The route of a node past the seed extends the route
of an expanded node, and it is the best of its length among all those. What was read once keeps its route and its hop.
-/
theorem named_walk_routes (store : GraphStore) (seed : Node) (named : List String) (maxHops maxBridge fuel : Nat)
    (enough : store.nodes.length + 2 ≤ fuel) : ∃ walk, walkCalls store fuel seed named maxHops maxBridge = some walk ∧
      (∀ id, (∃ hop, walk.parent.get id = some hop) ↔ ∃ route, walk.routes id = some route) ∧
      (∀ id route, walk.routes id = some route → ∀ chainFuel, maxHops + 2 ≤ chainFuel →
        ∃ steps, chainTo walk.parent chainFuel id = some steps ∧
          NamedChain seed named maxHops maxBridge id route steps) ∧
      (∀ id route, id ≠ seed.id → walk.routes id = some route →
        (∃ before earlier, walk.Expanded maxHops before ∧ walk.routes before = some earlier ∧
          ∃ row ∈ callees store before, isFlowEdge row.edge.kind = true ∧ row.node.id = id ∧
            route = earlier.extend named row.node) ∧
        ∀ before earlier, walk.Expanded maxHops before → walk.routes before = some earlier →
          ∀ row ∈ callees store before, isFlowEdge row.edge.kind = true → row.node.id = id →
            (earlier.extend named row.node).depth = route.depth → route.Better (earlier.extend named row.node)) ∧
      ∀ middle, NamedWalk.Turns store seed named maxHops maxBridge (NamedWalk.start seed named) middle →
        NamedWalk.Turns store seed named maxHops maxBridge middle walk → ∀ id ∈ middle.visited,
          walk.routes id = middle.routes id ∧ walk.parent.get id = middle.parent.get id := by
  have start : (NamedWalk.start seed named).Steady store seed named maxHops maxBridge := NamedWalk.Steady.start
  obtain ⟨walk, ran, -, turns⟩ := start.run fuel enough
  obtain ⟨⟨sound, -, settled⟩, -⟩ := start.turns turns
  refine ⟨walk, ran, fun id => (sound.hopped id).symm.trans (sound.queued id), fun id route found chainFuel bound =>
    sound.chain found bound, fun id route past found => ?_,
      fun middle early late => ((start.turns early).1.turns late).2.final⟩
  obtain ⟨hop, stored⟩ := (sound.hopped id).mp ((sound.queued id).mpr ⟨route, found⟩)
  obtain ⟨before, row, earlier, -, listed, flows, same, seen, held, deep, extended, fits⟩ :=
    sound.reaches id hop past stored
  rw [found] at extended
  obtain rfl := Option.some.inj extended
  refine ⟨⟨before, earlier, ⟨seen, earlier, held, deep⟩, held, row, listed, flows, same, rfl⟩, ?_⟩
  intro other rival expanded rivalRoute rivalRow rivalListed rivalFlows rivalSame level
  obtain ⟨read, expandedRoute, again, shallow⟩ := expanded
  rw [rivalRoute] at again
  obtain rfl := Option.some.inj again
  by_cases within : (rival.extend named rivalRow.node).streak ≤ maxBridge
  · obtain ⟨best, known, beats⟩ := settled other read rival rivalRoute shallow rivalRow rivalListed rivalFlows within
    rw [rivalSame, found] at known
    obtain rfl := Option.some.inj known
    rcases beats with shorter | ⟨-, better⟩
    · exact absurd shorter (by omega)
    · exact better
  · exact .inl (by omega)

/-- Calls that fork. -/
theorem forked_calls_named : ∃ walk, walkCalls forkedCalls 6 (bareNode "a" .function) ["a", "d"] 7 1 = some walk ∧
    ∀ id route, walk.routes id = some route → ∀ chainFuel, 9 ≤ chainFuel →
      ∃ steps, chainTo walk.parent chainFuel id = some steps ∧
        NamedChain (bareNode "a" .function) ["a", "d"] 7 1 id route steps := by
  obtain ⟨walk, walked, -, chains, -⟩ :=
    named_walk_routes forkedCalls (bareNode "a" .function) ["a", "d"] 7 1 6 (by decide)
  exact ⟨walk, walked, chains⟩

/-- The seed is reached even when no hops are allowed. -/
theorem seed_without_hops : ∃ walk steps, walkCalls forkedCalls 6 (bareNode "a" .function) ["a", "d"] 0 1 = some walk ∧
    chainTo walk.parent 2 "a" = some steps ∧ ¬ steps.length ≤ 0 :=
  ⟨_, _, rfl, rfl, by decide⟩

end Walk

end Codegraph.Graph
