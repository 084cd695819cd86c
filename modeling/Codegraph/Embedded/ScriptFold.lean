import Codegraph.Embedded.NodeIds

/- This file models how a script block's extraction joins its component, and shows what the joined result keeps. -/

namespace Codegraph.Embedded
open Codegraph.Core List

structure ExtractionResult where
  nodes : List Node
  edges : List Edge
  unresolvedReferences : List UnresolvedRef
  errors : List String
  durationMs : Int

def emptyResult (durationMs : Int) : ExtractionResult := ⟨[], [], [], [], durationMs⟩

def containsEdge (source target : String) : Edge := ⟨none, source, target, .contains, none, none, none, none⟩

/-- How the script block of a component joins it. A block that runs for each instance acts for the component. -/
structure ScriptFold where
  filePath : String
  componentId : String
  lineOffset : Int
  language : Language
  perInstance : Bool

/-- The nodes of an extraction, without the file's. -/
def ExtractionResult.declarations (result : ExtractionResult) : List Node := result.nodes.filter (·.kind ≠ .file)

section Fold

variable (fold : ScriptFold) (delegated : ExtractionResult)

/-- What has a parent inside its block. -/
def ScriptFold.parented : List String :=
  (delegated.edges.filter fun edge => edge.kind = .contains ∧ edge.source ≠ fileNodeId fold.filePath).map Edge.target

def ScriptFold.instanceValues : List String :=
  if fold.perInstance then
    ((delegated.nodes.filter fun node => node.kind = .constant ∨ node.kind = .variable_).filter fun node =>
      node.id ∉ fold.parented delegated).map Node.id
  else []

def ScriptFold.runsAsComponent (id : String) : Bool :=
  id = fileNodeId fold.filePath || decide (id ∈ fold.instanceValues delegated)

def ScriptFold.foldNode (node : Node) : Node :=
  { node with
    startLine := node.startLine + fold.lineOffset
    endLine := node.endLine + fold.lineOffset
    filePath := fold.filePath
    language := fold.language }

/-- What a value at the top level does is done by the component. What it holds stays its own. -/
def ScriptFold.foldEdge (edge : Edge) : Edge :=
  { edge with
    line := edge.line.map (· + fold.lineOffset)
    source :=
      if fold.perInstance && fold.runsAsComponent delegated edge.source &&
        !(edge.kind = .imports || edge.kind = .contains) then fold.componentId
      else edge.source }

def ScriptFold.foldReference (reference : UnresolvedRef) : UnresolvedRef :=
  { reference with
    line := reference.line + fold.lineOffset
    filePath := fold.filePath
    language := fold.language
    fromNodeId :=
      if fold.perInstance && fold.runsAsComponent delegated reference.fromNodeId &&
        (reference.referenceKind = .calls || reference.referenceKind = .references || reference.referenceKind =
          .instantiates) then fold.componentId
      else reference.fromNodeId }

/-- The component holds what the block holds at its top level. -/
def ScriptFold.adoptions : List Edge :=
  (delegated.declarations.filter fun node => node.id ∉ fold.parented delegated).map fun node =>
    containsEdge fold.componentId node.id

def ScriptFold.keptEdges : List Edge :=
  delegated.edges.filter fun edge => ¬ (edge.kind = .contains ∧ edge.source = fileNodeId fold.filePath)

def foldScriptResult (target : ExtractionResult) : ExtractionResult where
  nodes := target.nodes ++ delegated.declarations.map fold.foldNode
  edges := target.edges ++ fold.adoptions delegated ++ (fold.keptEdges delegated).map (fold.foldEdge delegated)
  unresolvedReferences :=
    target.unresolvedReferences ++ delegated.unresolvedReferences.map (fold.foldReference delegated)
  errors := target.errors ++ delegated.errors
  durationMs := target.durationMs + delegated.durationMs

end Fold

/-- The identity that an extractor gives a declaration of its block. -/
def identityOf (node : Node) : Identity := ⟨node.kind, node.name, node.startLine.toNat⟩

/-- The edges by which some node holds another. -/
def parentEdges (edges : List Edge) (id : String) : List Edge :=
  edges.filter fun edge => edge.kind = .contains ∧ edge.target = id

/-- What the extractor of a script makes of a block: ids from one allocator, which are distinct, and one parent for
each declaration, the file or a declaration made before it. -/
structure WellExtracted (filePath : String) (result : ExtractionResult) : Prop where
  distinct : (result.declarations.map Node.id).Nodup
  allocated : ∃ columns : List Nat, columns.length = result.declarations.length ∧
    result.declarations.map Node.id =
      (⟨[]⟩ : NodeIdAllocator).allocate filePath ((result.declarations.map identityOf).zip columns)
  contained : ∀ edge ∈ result.edges, edge.kind = .contains → edge.target ∈ result.declarations.map Node.id
  parent : ∀ front node back, result.declarations = front ++ node :: back →
    ∃ edge, parentEdges result.edges node.id = [edge] ∧
      (edge.source = fileNodeId filePath ∨ edge.source ∈ front.map Node.id)

/-- A block that joins its component: what the extractor made of it, the members that were named in it, and the result
that is folded. -/
structure Part where
  extracted : ExtractionResult
  members : List Node
  delegated : ExtractionResult
  fold : ScriptFold

/-- The members have no parents and no edges of their own yet, and the edges of the block are the extractor's up to
their sources. -/
structure Part.Joined (filePath componentId : String) (part : Part) : Prop where
  file : part.fold.filePath = filePath
  component : part.fold.componentId = componentId
  extracted : WellExtracted filePath part.extracted
  nodes : part.delegated.declarations = part.extracted.declarations ++ part.members
  holding : (part.delegated.edges.filter fun edge => edge.kind = .contains) = part.extracted.edges.filter fun edge =>
    edge.kind = .contains

def Part.ids (part : Part) : List String := part.delegated.declarations.map Node.id

/-- The edges of a part in the joined result. -/
def Part.edges (part : Part) : List Edge :=
  part.fold.adoptions part.delegated ++ (part.fold.keptEdges part.delegated).map (part.fold.foldEdge part.delegated)

section Parents

variable {filePath componentId : String} {part : Part} {id : String} {edges : List Edge} {edge : Edge} {node : Node}

theorem parentEdges_append (first second : List Edge) :
    parentEdges (first ++ second) id = parentEdges first id ++ parentEdges second id :=
  filter_append ..

theorem mem_parentEdges : edge ∈ parentEdges edges id ↔ edge ∈ edges ∧ edge.kind = .contains ∧ edge.target = id := by
  simp [parentEdges]

theorem parentEdges_eq_nil : parentEdges edges id = [] ↔ ∀ edge ∈ edges, edge.kind = .contains → edge.target ≠ id := by
  simp [parentEdges]

theorem parentEdges_holding (first second : List Edge)
    (same : (first.filter fun edge => edge.kind = .contains) = second.filter fun edge => edge.kind = .contains) :
    parentEdges first id = parentEdges second id := by
  have cut (edges : List Edge) : parentEdges edges id =
    (edges.filter fun edge => edge.kind = .contains).filter fun edge => edge.target = id := by
    rw [filter_filter, parentEdges]
    refine filter_congr fun edge _ => ?_
    rw [Bool.and_comm, ← Bool.decide_and]
  rw [cut, same, ← cut]

theorem foldEdge_kind (fold : ScriptFold) (delegated : ExtractionResult) :
    (fold.foldEdge delegated edge).kind = edge.kind ∧ (fold.foldEdge delegated edge).target = edge.target ∧
      (edge.kind = .contains → (fold.foldEdge delegated edge).source = edge.source) := by
  refine ⟨rfl, rfl, fun contains => ?_⟩
  simp [ScriptFold.foldEdge, contains]

/-- Parents inside the block stay, up to the lines of their edges. -/
theorem parentEdges_kept (fold : ScriptFold) (delegated : ExtractionResult) :
    parentEdges ((fold.keptEdges delegated).map (fold.foldEdge delegated)) id =
      ((parentEdges delegated.edges id).filter fun edge => edge.source ≠ fileNodeId fold.filePath).map
        (fold.foldEdge delegated) := by
  rw [parentEdges, filter_map, ScriptFold.keptEdges, filter_filter, parentEdges, filter_filter]
  congr 1
  refine filter_congr fun edge _ => ?_
  show (decide (edge.kind = .contains ∧ edge.target = id) && decide _) = _
  by_cases contains : edge.kind = .contains <;> by_cases target : edge.target = id <;>
    by_cases top : edge.source = fileNodeId fold.filePath <;>
    simp [contains, target, top]

theorem mem_parented {fold : ScriptFold} {delegated : ExtractionResult} : id ∈ fold.parented delegated ↔
      ((parentEdges delegated.edges id).filter fun edge => edge.source ≠ fileNodeId fold.filePath) ≠ [] := by
  rw [← isEmpty_eq_false_iff, isEmpty_eq_false_iff_exists_mem]
  simp only [ScriptFold.parented, mem_map, mem_filter, decide_eq_true_eq, mem_parentEdges]
  constructor
  · rintro ⟨edge, ⟨member, contains, inner⟩, rfl⟩
    exact ⟨edge, ⟨member, contains, rfl⟩, inner⟩
  · rintro ⟨edge, ⟨member, contains, target⟩, inner⟩
    exact ⟨edge, ⟨member, contains, inner⟩, target⟩

/-- A part holds nothing but its own nodes. -/
theorem Part.Joined.outside (joined : part.Joined filePath componentId) (outside : id ∉ part.ids) :
    parentEdges part.edges id = [] := by
  rw [Part.edges, parentEdges_append, parentEdges_kept, append_eq_nil_iff]
  constructor
  · rw [parentEdges_eq_nil]
    intro edge member _ target
    obtain ⟨node, inside, rfl⟩ := mem_map.mp member
    exact outside (target ▸ mem_map_of_mem (mem_filter.mp inside).1)
  · have none : parentEdges part.delegated.edges id = [] := by
      rw [parentEdges_holding _ _ joined.holding, parentEdges_eq_nil]
      intro edge member contains target
      refine outside ?_
      rw [Part.ids, joined.nodes, map_append]
      exact mem_append_left _ (target ▸ joined.extracted.contained edge member contains)
    rw [none]
    rfl

/-- A declaration that has no parent in its block is adopted by the component. -/
theorem parentEdges_adoptions (fold : ScriptFold) (delegated : ExtractionResult)
    (distinct : (delegated.declarations.map Node.id).Nodup) (member : node ∈ delegated.declarations) :
    parentEdges (fold.adoptions delegated) node.id =
      if node.id ∈ fold.parented delegated then [] else [containsEdge fold.componentId node.id] := by
  have single : (delegated.declarations.filter fun other => other.id = node.id) = [node] := by
    obtain ⟨front, back, parts⟩ := append_of_mem member
    rw [parts, map_append, map_cons, nodup_append, nodup_cons] at distinct
    obtain ⟨-, ⟨notBack, -⟩, apart⟩ := distinct
    have frontNone : (front.filter fun other => other.id = node.id) = [] := by
      rw [filter_eq_nil_iff]
      intro other inside same
      exact apart other.id (mem_map_of_mem inside) node.id (mem_cons_self ..) (of_decide_eq_true same)
    have backNone : (back.filter fun other => other.id = node.id) = [] := by
      rw [filter_eq_nil_iff]
      intro other inside same
      exact notBack (of_decide_eq_true same ▸ mem_map_of_mem inside)
    rw [parts, filter_append, filter_cons_of_pos (by simp), frontNone, backNone]
    rfl
  rw [ScriptFold.adoptions, parentEdges, filter_map, filter_filter]
  have order : (delegated.declarations.filter fun other =>
      ((fun edge : Edge => decide (edge.kind = .contains ∧ edge.target = node.id)) ∘ fun other =>
        containsEdge fold.componentId other.id) other &&
        decide (other.id ∉ fold.parented delegated)) =
      (delegated.declarations.filter fun other => other.id = node.id).filter fun other =>
        other.id ∉ fold.parented delegated := by
    rw [filter_filter]
    refine filter_congr fun other _ => ?_
    simp only [Function.comp_apply, containsEdge, true_and, Bool.and_comm]
  rw [order, single]
  by_cases held : node.id ∈ fold.parented delegated <;> simp [held]

/-- A node has one parent in its part, the component when it had none inside the block. -/
theorem Part.Joined.parent (joined : part.Joined filePath componentId) (distinct : part.ids.Nodup)
    (member : node ∈ part.delegated.declarations) : ∃ edge, parentEdges part.edges node.id = [edge] := by
  rw [Part.edges, parentEdges_append, parentEdges_kept, parentEdges_adoptions _ _ distinct member]
  simp only [mem_parented]
  have few : (parentEdges part.delegated.edges node.id).length ≤ 1 := by
    rw [parentEdges_holding _ _ joined.holding]
    rw [joined.nodes, mem_append] at member
    rcases member with declared | named
    · obtain ⟨front, back, parts⟩ := append_of_mem declared
      obtain ⟨edge, one, -⟩ := joined.extracted.parent front node back parts
      rw [one]
      exact Nat.le_refl _
    · have none : parentEdges part.extracted.edges node.id = [] := by
        rw [parentEdges_eq_nil]
        intro edge inside contains target
        rw [Part.ids, joined.nodes, map_append, nodup_append] at distinct
        exact distinct.2.2 _ (joined.extracted.contained edge inside contains) node.id
          (mem_map_of_mem named) target
      rw [none]
      exact Nat.zero_le _
  rcases Nat.le_one_iff_eq_zero_or_eq_one.mp few with none | one
  · rw [length_eq_zero_iff.mp none]
    exact ⟨_, rfl⟩
  · obtain ⟨edge, only⟩ := length_eq_one_iff.mp one
    rw [only]
    by_cases top : edge.source = fileNodeId part.fold.filePath
    · exact ⟨containsEdge part.fold.componentId node.id, by simp [top]⟩
    · exact ⟨part.fold.foldEdge part.delegated edge, by simp [top]⟩

end Parents

/-- A node lies directly in another. -/
def HeldBy (edges : List Edge) (child parent : String) : Prop :=
  ∃ edge ∈ edges, edge.kind = .contains ∧ edge.target = child ∧ edge.source = parent

/-- All nodes of a file have different ids, one parent each but for the file, and the file above them. -/
structure Identified (filePath : String) (result : ExtractionResult) : Prop where
  distinct : (result.nodes.map Node.id).Nodup
  parent : ∀ node ∈ result.nodes, node.id ≠ fileNodeId filePath → ∃ edge, parentEdges result.edges node.id = [edge]
  reaches : ∀ node ∈ result.nodes, Relation.ReflTransGen (HeldBy result.edges) node.id (fileNodeId filePath)

/-- The parts that joined a component, in order, behind the file and the component. -/
structure Joins (filePath : String) (file component : Node) (parts : List Part) (result : ExtractionResult) : Prop where
  named : file.id = fileNodeId filePath
  nodes : result.nodes = file :: component :: parts.flatMap fun part =>
    part.delegated.declarations.map part.fold.foldNode
  edges : ∃ calls, result.edges = containsEdge file.id component.id :: parts.flatMap Part.edges ++ calls ∧
    ∀ edge ∈ calls, edge.kind ≠ .contains
  joined : ∀ part ∈ parts, part.Joined filePath component.id

section Whole

variable {filePath : String} {file component node : Node} {parts : List Part} {part : Part}
  {result : ExtractionResult} {id : String}

theorem Joins.ids (joins : Joins filePath file component parts result) :
    result.nodes.map Node.id = fileNodeId filePath :: component.id :: parts.flatMap Part.ids := by
  have own (part : Part) : (part.delegated.declarations.map part.fold.foldNode).map Node.id = part.ids := by
    rw [map_map]
    rfl
  rw [joins.nodes, map_cons, map_cons, joins.named, map_flatMap]
  simp only [own]

theorem parentEdges_calls {calls : List Edge} (plain : ∀ edge ∈ calls, edge.kind ≠ .contains) :
    parentEdges calls id = [] :=
  parentEdges_eq_nil.mpr fun edge member contains => absurd contains (plain edge member)

theorem parentEdges_parts (joined : ∀ part ∈ parts, part.Joined filePath component.id)
    (outside : ∀ part ∈ parts, id ∉ part.ids) : parentEdges (parts.flatMap Part.edges) id = [] := by
  rw [parentEdges_eq_nil]
  intro edge member contains
  obtain ⟨part, inside, own⟩ := mem_flatMap.mp member
  exact parentEdges_eq_nil.mp ((joined part inside).outside (outside part inside)) edge own contains

theorem Joins.component_parent (joins : Joins filePath file component parts result)
    (distinct : (result.nodes.map Node.id).Nodup) :
    parentEdges result.edges component.id = [containsEdge file.id component.id] := by
  rw [joins.ids, nodup_cons, nodup_cons] at distinct
  obtain ⟨calls, edges, plain⟩ := joins.edges
  have others : parentEdges (parts.flatMap Part.edges) component.id = [] :=
    parentEdges_parts joins.joined fun part inside own => distinct.2.1 (mem_flatMap.mpr ⟨part, inside, own⟩)
  rw [edges, parentEdges_append, parentEdges_calls plain, append_nil, parentEdges,
    filter_cons_of_pos (by simp [containsEdge])]
  rw [parentEdges] at others
  rw [others]

/-- Every declaration of a part has one parent. -/
theorem Joins.part_parent (joins : Joins filePath file component parts result)
    (distinct : (result.nodes.map Node.id).Nodup)
    (inside : part ∈ parts) (member : node ∈ part.delegated.declarations) :
    ∃ edge, parentEdges result.edges node.id = [edge] := by
  rw [joins.ids, nodup_cons, nodup_cons] at distinct
  obtain ⟨-, notComponent, apart⟩ := distinct
  have own : node.id ∈ part.ids := mem_map_of_mem member
  obtain ⟨calls, edges, plain⟩ := joins.edges
  obtain ⟨before, after, rfl⟩ := append_of_mem inside
  rw [flatMap_append, flatMap_cons, nodup_append, nodup_append] at apart
  obtain ⟨-, ⟨partDistinct, -, notAfter⟩, notBefore⟩ := apart
  have component_ : component.id ≠ node.id := fun same => notComponent (same ▸ mem_flatMap.mpr ⟨part, inside, own⟩)
  have none_ : parentEdges (before.flatMap Part.edges) node.id = [] :=
    parentEdges_parts (fun other within => joins.joined other (mem_append_left _ within)) fun other within held =>
      notBefore _ (mem_flatMap.mpr ⟨other, within, held⟩) _ (mem_append_left _ own) rfl
  have later : parentEdges (after.flatMap Part.edges) node.id = [] :=
    parentEdges_parts (fun other within =>
      joins.joined other (mem_append_right _ (mem_cons_of_mem _ within))) fun other within held =>
      notAfter _ own _ (mem_flatMap.mpr ⟨other, within, held⟩) rfl
  obtain ⟨edge, one⟩ := (joins.joined part inside).parent partDistinct member
  refine ⟨edge, ?_⟩
  have first : parentEdges [containsEdge file.id component.id] node.id = [] := by
    rw [parentEdges_eq_nil]
    rintro edge held -
    rw [mem_singleton.mp held]
    exact component_
  rw [edges, ← singleton_append, flatMap_append, flatMap_cons, parentEdges_append, parentEdges_append,
    parentEdges_append, parentEdges_append, first, none_, one, later, parentEdges_calls plain]
  rfl

/-- A node without a parent in its block lies in the component. -/
theorem Part.Joined.adopted (joined : part.Joined filePath component.id) (member : node ∈ part.delegated.declarations)
    (free : (parentEdges part.delegated.edges node.id).filter (fun edge => edge.source ≠ fileNodeId filePath) = []) :
    containsEdge component.id node.id ∈ part.edges := by
  rw [Part.edges, mem_append]
  refine .inl (mem_map.mpr ⟨node, mem_filter.mpr ⟨member, decide_eq_true ?_⟩, by rw [joined.component]⟩)
  rw [mem_parented, joined.file]
  exact not_not_intro free

/-- The declarations of a part are held by the file. -/
theorem Part.Joined.reaches (joined : part.Joined filePath component.id) {edges : List Edge}
    (within : part.edges ⊆ edges)
    (top : Relation.ReflTransGen (HeldBy edges) component.id (fileNodeId filePath)) (distinct : part.ids.Nodup)
    (member : node ∈ part.delegated.declarations) :
    Relation.ReflTransGen (HeldBy edges) node.id (fileNodeId filePath) := by
  have adopted {node : Node} (member : node ∈ part.delegated.declarations)
      (free : (parentEdges part.delegated.edges node.id).filter (fun edge => edge.source ≠ fileNodeId filePath) = []) :
      Relation.ReflTransGen (HeldBy edges) node.id (fileNodeId filePath) :=
    .head ⟨_, within (joined.adopted member free), rfl, rfl, rfl⟩ top
  have inBlock : ∀ (count : Nat) (front : List Node) (node : Node) (back : List Node), front.length = count →
      part.extracted.declarations = front ++ node :: back →
        Relation.ReflTransGen (HeldBy edges) node.id (fileNodeId filePath) := by
    intro count
    induction count using Nat.strong_induction_on with
    | _ count ih =>
      intro front node back length declared
      have member : node ∈ part.delegated.declarations := by
        rw [joined.nodes, declared]
        simp
      obtain ⟨edge, one, source⟩ := joined.extracted.parent front node back declared
      rw [← parentEdges_holding _ _ joined.holding] at one
      by_cases atTop : edge.source = fileNodeId filePath
      · exact adopted member (by simp [one, atTop])
      · obtain ⟨parent, inFront, named⟩ := mem_map.mp (source.resolve_left atTop)
        obtain ⟨first, second, rfl⟩ := append_of_mem inFront
        have above := ih first.length (by rw [← length]; simp) first parent (second ++ node :: back) rfl
          (by simpa using declared)
        have kept : part.fold.foldEdge part.delegated edge ∈
          parentEdges ((part.fold.keptEdges part.delegated).map (part.fold.foldEdge part.delegated)) node.id := by
          rw [parentEdges_kept, one, joined.file]
          simp [atTop]
        obtain ⟨inside, contains, target⟩ := mem_parentEdges.mp kept
        refine .head ⟨_, within (mem_append_right _ inside), contains, target, ?_⟩ above
        have sourceContains : edge.kind = .contains := contains
        rw [(foldEdge_kind part.fold part.delegated).2.2 sourceContains, named]
  have split := member
  rw [joined.nodes, mem_append] at split
  rcases split with declared | named
  · obtain ⟨front, back, parts⟩ := append_of_mem declared
    exact inBlock front.length front node back rfl parts
  · refine adopted member ?_
    have none : parentEdges part.delegated.edges node.id = [] := by
      rw [parentEdges_holding _ _ joined.holding, parentEdges_eq_nil]
      intro edge inside contains target
      rw [Part.ids, joined.nodes, map_append, nodup_append] at distinct
      exact distinct.2.2 _ (joined.extracted.contained edge inside contains) node.id (mem_map_of_mem named) target
    rw [none]
    rfl

/-- A file whose nodes have different ids is identified. -/
theorem Joins.identified_iff (joins : Joins filePath file component parts result) :
    Identified filePath result ↔ (result.nodes.map Node.id).Nodup := by
  refine ⟨Identified.distinct, fun distinct => ⟨distinct, fun node member other => ?_, fun node member => ?_⟩⟩
  · rw [joins.nodes] at member
    rcases mem_cons.mp member with rfl | member
    · exact absurd joins.named other
    · rcases mem_cons.mp member with rfl | member
      · exact ⟨_, joins.component_parent distinct⟩
      · obtain ⟨part, inside, folded⟩ := mem_flatMap.mp member
        obtain ⟨before, declared, rfl⟩ := mem_map.mp folded
        show ∃ edge, parentEdges result.edges before.id = [edge]
        exact joins.part_parent distinct inside declared
  · obtain ⟨calls, edges, -⟩ := joins.edges
    have top : Relation.ReflTransGen (HeldBy result.edges) component.id (fileNodeId filePath) := by
      refine .single ⟨containsEdge file.id component.id, ?_, rfl, rfl, joins.named⟩
      rw [edges]
      exact mem_append_left _ (mem_cons_self ..)
    rw [joins.nodes] at member
    rcases mem_cons.mp member with rfl | member
    · rw [joins.named]
    · rcases mem_cons.mp member with rfl | member
      · exact top
      · obtain ⟨part, inside, folded⟩ := mem_flatMap.mp member
        obtain ⟨before, declared, rfl⟩ := mem_map.mp folded
        have within : part.edges ⊆ result.edges := by
          intro edge own
          rw [edges]
          exact mem_append_left _ (mem_cons_of_mem _ (mem_flatMap.mpr ⟨part, inside, own⟩))
        rw [joins.ids, nodup_cons, nodup_cons, nodup_flatMap] at distinct
        show Relation.ReflTransGen (HeldBy result.edges) before.id (fileNodeId filePath)
        exact (joins.joined part inside).reaches within top (distinct.2.2.1 part inside) declared

end Whole

end Codegraph.Embedded
