import Codegraph.DeadCode.Index
import Codegraph.Library.InsertionMaps
import Codegraph.Library.Occurrences

/- This file holds the rules of the dead code report that ask the graph: what contains a candidate, what decorates it,
what it overrides, which framework calls it by its name, and whether anything reaches its file. -/

namespace Codegraph.DeadCode
open Codegraph.Core Codegraph.Graph InsertionMaps Occurrences

variable (index : DeadCodeIndex)

/-- The members of a set in order, each once. -/
def sortedUnique (ids : List String) : List String :=
  (ids.insertionSort fun first second => (compare first second).isLE).eraseDups

/-- The type that each member is declared in, by the id of the member. -/
abbrev Containers := List (String × Node)

def edgeCmp (near far : Edge → String) (first second : Edge) : Ordering :=
  (compare (near first) (near second)).then (compare (far first) (far second))

/-- The edges into the members among the nodes, in a stable order. -/
def containerEdges (nodes : List Node) : List Edge :=
  (index.incomingEdgesTo ((nodes.filter fun node => isOverridableKind node.kind).map Node.id) [.contains]).insertionSort
    fun first second => (edgeCmp Edge.target Edge.source first second).isLE

/-- The first container of a member counts, and only when it is a type. -/
def containersOf (nodes : List Node) : Containers :=
  let edges := containerEdges index nodes
  (firsts Edge.target edges).filterMap fun member =>
    ((firstOf Edge.target edges member).bind fun edge => index.tables.nodeById edge.source).bind fun container =>
      if isContainerKind container.kind then some (member, container) else none

/-- An edge, a reference without a target, or the symbol itself names a decorator. -/
def carriesDecorator (nodes : List Node) : List String :=
  let ids := nodes.map Node.id
  (index.outgoingEdgesFrom ids [.decorates]).map Edge.source ++
    ids.filter (fun id => !(index.unresolvedReferenceNamesFrom ids [.decorates] id).isEmpty) ++
    (nodes.filter fun node => !node.decorators.isEmpty).map Node.id

section Ancestors

/-- An ancestor is reached from the ids it is an ancestor of. -/
abbrev Roots := InsertionMap String (List String)

def Roots.at (roots : Roots) (id : String) : List String := (roots.get id).getD []

/-- The state of a walk to the ancestors. -/
structure AncestorWalk where
  reach : Roots
  seen : Roots
  next : List (String × List String)

/-- The ids join the entry of a target in the next frontier. -/
def extendFrontier (target : String) (merged : List String) : List (String × List String) → List (String × List String)
  | [] => [(target, merged)]
  | entry :: rest =>
    if entry.1 = target then (entry.1, entry.2 ++ merged) :: rest else entry :: extendFrontier target merged rest

def AncestorWalk.climb (frontier : List (String × List String)) (walk : AncestorWalk) (edge : Edge) : AncestorWalk :=
  if edge.target = edge.source then walk
  else
    match frontier.lookup edge.source with
    | none => walk
    | some roots =>
      let visited := walk.seen.at edge.target
      let merged := roots.filter fun root => !visited.contains root
      let known := walk.reach.at edge.target ++ merged
      { reach := if known.isEmpty then walk.reach else walk.reach.insert edge.target known
        seen := walk.seen.insert edge.target (visited ++ merged)
        next := if merged.isEmpty then walk.next else extendFrontier edge.target merged walk.next }

/-- The walk goes up level by level over all ids at once. -/
def ancestorLevels (kinds : List EdgeKind) : Nat → List (String × List String) → AncestorWalk → Roots
  | 0, _, walk => walk.reach
  | depth + 1, frontier, walk =>
    if frontier.isEmpty then walk.reach
    else
      let edges := (index.outgoingEdgesFrom (frontier.map Prod.fst) kinds).insertionSort fun first second =>
        (edgeCmp Edge.source Edge.target first second).isLE
      let walk := edges.foldl (.climb frontier) { walk with next := [] }
      ancestorLevels kinds depth walk.next walk

def ancestorsOf (ids : List String) (kinds : List EdgeKind) : Roots :=
  ancestorLevels index kinds maxOverrideAncestorDepth (ids.map fun id => (id, [id]))
    ⟨.empty, ids.foldl (fun seen id => seen.insert id [id]) .empty, []⟩

end Ancestors

/-- The names of the members that a type declares. -/
def memberNames (memberEdges : List Edge) (id : String) : List String :=
  (((memberEdges.filter fun edge => edge.source = id).filterMap fun edge => index.tables.nodeById edge.target).filter
    fun member => isOverridableKind member.kind).map Node.name

/-- A member overrides what an ancestor of its container declares. An ancestor outside the index, or one that declares
nothing, may declare anything. -/
def overrideCandidates (nodes : List Node) (containers : Containers) : List String :=
  let containerIds := sortedUnique (containers.map fun entry => entry.2.id)
  if containerIds.isEmpty then []
  else
    let reach := ancestorsOf index containerIds [.extends_, .implements]
    let external := index.unresolvedSupertypeSourcesAmong (containerIds ++ reach.keys)
    let names := memberNames index (index.outgoingEdgesFrom reach.keys [.contains])
    let hidden := containerIds.filter external.contains ++
      (reach.keys.filter fun ancestor => external.contains ancestor || (names ancestor).isEmpty).flatMap reach.at
    let inherited root := (reach.keys.filter fun ancestor => (reach.at ancestor).contains root).flatMap names
    (nodes.filter fun node => (containers.lookup node.id).any fun container =>
      hidden.contains container.id || (inherited container.id).contains node.name).map Node.id

section Hooks

/-- The classes that declare a hook of a name. -/
def declaringClasses (containers declaredIn : Containers) (declarations : List Node) (name : String) : List String :=
  ((((declarations.filter fun node => node.name = name).filterMap fun node =>
    (containers.lookup node.id).or (declaredIn.lookup node.id)).filter fun container => container.kind = .class_).map
      Node.id).eraseDups

/-- The classes that write out each interface, where a framework creates more than half of them. -/
def contractImplementers (interfaces : List String) : List (String × List String) :=
  let writers := index.unresolvedReferenceSourcesNamed interfaces [.implements]
  let typescript := ((sortedUnique (interfaces.flatMap writers)).filterMap index.tables.nodeById).filter fun node =>
    byNameDispatchLanguages.contains node.language
  let registered := carriesDecorator index typescript
  interfaces.filterMap fun name =>
    let own := (writers name).filter (typescript.map Node.id).contains
    if (own.filter registered.contains).length * 2 > own.length then some (name, own) else none

/-- Every implementer has the hook or may have it, and enough of them declare it. -/
def fillsContract (declared : List String) (has : String → Bool) (own : List String) : Bool :=
  let declaredCount := (own.filter declared.contains).length
  decide (declaredCount ≥ 2) && decide (declaredCount * 2 > own.length) && own.all has

/-- The names among the given ones that some interface outside the index carries. -/
def hookNames (names : List String) (declaring : String → List String) : List String :=
  let declarers := sortedUnique (names.flatMap declaring)
  let interfacesOf := index.unresolvedReferenceNamesFrom declarers [.implements]
  let implementers := contractImplementers index (sortedUnique (declarers.flatMap interfacesOf))
  let implementerIds := sortedUnique (implementers.flatMap Prod.snd)
  let ancestors := ancestorsOf index implementerIds [.extends_]
  let outside id := !(index.unresolvedReferenceNamesFrom (implementerIds ++ ancestors.keys) [.extends_] id).isEmpty
  let hidden := implementerIds.filter outside ++ (ancestors.keys.filter outside).flatMap ancestors.at
  names.filter fun name =>
    let declared := declaring name
    let has id := declared.contains id || hidden.contains id ||
      ancestors.keys.any fun ancestor => (ancestors.at ancestor).contains id && declared.contains ancestor
    (declared.flatMap interfacesOf).any fun contract => (implementers.lookup contract).any (fillsContract declared has)

/-- A framework calls a hook by its name on a decorated class, whether or not the class writes the interface out. -/
def byNameHookCandidates (nodes : List Node) (containers : Containers) (unreferenced : List Node) : List String :=
  let methods := nodes.filter fun node =>
    isHookShaped node && (containers.lookup node.id).any fun container => container.kind = .class_
  let registered := carriesDecorator index (methods.filterMap fun node => containers.lookup node.id)
  let eligible := methods.filter fun node =>
    (containers.lookup node.id).any fun container => registered.contains container.id
  let names := (eligible.map Node.name).eraseDups
  let declarations := unreferenced.filter fun node => names.contains node.name && isHookShaped node
  let declaredIn := containersOf index (declarations.filter fun node => (containers.lookup node.id).isNone)
  let hooks := hookNames index names (declaringClasses containers declaredIn declarations)
  (eligible.filter fun node => hooks.contains node.name).map Node.id

end Hooks

/-- The files of the candidates that no other file reaches. -/
def filesNothingReaches (nodes : List Node) : List String :=
  let paths := sortedUnique (nodes.map Node.filePath)
  paths.filter fun path => index.fileDependentCounts paths path = 0

variable {index} {nodes : List Node} {id : String} {container : Node}

theorem lookup_mem {containers : Containers} (found : containers.lookup id = some container) :
    (id, container) ∈ containers := by
  obtain ⟨before, after, parts, _⟩ := List.lookup_eq_some_iff.mp found
  rw [parts]
  simp

/-- A container is a stored type, and what it contains is a member among the nodes. -/
theorem containersOf_spec (found : (containersOf index nodes).lookup id = some container) :
    (∃ node ∈ nodes, node.id = id ∧ isOverridableKind node.kind = true) ∧
      isContainerKind container.kind = true ∧ container ∈ index.tables.nodes := by
  obtain ⟨member, known, chosen⟩ := List.mem_filterMap.mp (lookup_mem found)
  obtain ⟨holder, stored, kept⟩ := Option.bind_eq_some_iff.mp chosen
  obtain ⟨edge, first, looked⟩ := Option.bind_eq_some_iff.mp stored
  split at kept
  · rename_i isType
    cases kept
    refine ⟨?_, isType, GraphStore.nodeById_mem looked⟩
    obtain ⟨listed, target⟩ := firstOf_some first
    obtain ⟨asked, wanted, from_⟩ := List.mem_flatMap.mp ((List.mem_insertionSort _).mp listed)
    have into := (GraphStore.mem_incomingEdges.mp from_).2.1
    obtain ⟨node, among, same⟩ := List.mem_map.mp (List.mem_eraseDups.mp wanted)
    obtain ⟨given, overridable⟩ := List.mem_filter.mp among
    exact ⟨node, given, same.trans (into.symm.trans target), overridable⟩
  · cases kept

end Codegraph.DeadCode
