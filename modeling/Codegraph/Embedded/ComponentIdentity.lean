import Codegraph.Embedded.ComponentParts

/- This file shows when the nodes of a single-file component have an identity of their own. -/

namespace Codegraph.Embedded
open Codegraph.Core List

/-- The nodes, edges and references of a block, each moved by the offset of the block. Only its file's own edges are
gone. -/
structure MovedBy (filePath : String) (offset : Int) (block moved : ExtractionResult) : Prop where
  nodes : List.Forall₂ (fun node other => other.id = node.id ∧ other.kind = node.kind ∧ other.name = node.name ∧
    other.startLine = node.startLine + offset ∧ other.endLine = node.endLine + offset) block.declarations moved.nodes
  edges : List.Forall₂
    (fun edge other => other.kind = edge.kind ∧ other.target = edge.target ∧ other.line = edge.line.map (· + offset))
    (block.edges.filter fun edge => ¬ (edge.kind = .contains ∧ edge.source = fileNodeId filePath)) moved.edges
  references : List.Forall₂ (fun reference other => other.referenceName = reference.referenceName ∧
    other.referenceKind = reference.referenceKind ∧ other.line = reference.line + offset) block.unresolvedReferences
      moved.unresolvedReferences

/-- The references to a compiler's own functions are dropped. -/
def Sfc.keepsReference (reference : UnresolvedRef) : Sfc → Bool
  | .vue => true
  | .svelte => reference.referenceName ∉ svelteRunes

section Identity

variable (tools : Toolkit) (filePath source : String) (sfc : Sfc)

def Sfc.owner : String := (componentNode filePath source sfc).name

/-- A file's blocks, each moved by its own lines, stand behind the file and its component. -/
def LinesMoved : Prop :=
  ∃ moved : List ExtractionResult,
    List.Forall₂ (fun block other =>
      MovedBy filePath block.lineOffset (sfc.delegated tools filePath (sfc.owner filePath source) block) other)
      (extractScriptBlocks tools source) moved ∧
    (sfc.extract tools filePath source).nodes =
      sfcFileNode filePath source sfc.language :: componentNode filePath source sfc ::
        moved.flatMap ExtractionResult.nodes ∧
    (moved.flatMap ExtractionResult.edges).Sublist (sfc.extract tools filePath source).edges ∧
    ((moved.flatMap ExtractionResult.unresolvedReferences).filter sfc.keepsReference).Sublist
      (sfc.extract tools filePath source).unresolvedReferences

/-- The identities that get ids without regard to one another: the component's, those of each block, and each options
member's. -/
def Sfc.identities : List (List Identity) :=
  [⟨.component, sfc.owner filePath source, 1⟩] :: (extractScriptBlocks tools source).flatMap fun block =>
    (tools.extractSource block.content (scriptLanguage block)).declarations.map identityOf ::
      (sfc.optionsMembers tools block).map fun member =>
        [memberIdentity (sfc.owner filePath source) block.lineOffset member]

end Identity

variable {tools : Toolkit} {filePath source : String} {sfc : Sfc}

theorem componentNode_id :
    (componentNode filePath source sfc).id = generateNodeId filePath ⟨.component, sfc.owner filePath source, 1⟩ := rfl

theorem sfcStart_opened : Opened (componentNode filePath source sfc).id (sfc.owner filePath source)
    (sfcStart filePath sfc source) where
  found := by
    have other : fileNodeId filePath ≠ (componentNode filePath source sfc).id := by
      intro same
      have apart := @fileNodeId_ne filePath ⟨.component, sfc.owner filePath source, 1⟩ NodeKind.noConfusion ""
      rw [String.append_empty, ← componentNode_id] at apart
      exact apart same.symm
    rw [sfcStart]
    dsimp only
    rw [find?_cons_of_neg (by simp [sfcFileNode, other]), find?_cons_of_pos (by simp)]
    rfl

/-- The parts of a component, one for each of its script blocks. -/
def Sfc.parts (tools : Toolkit) (filePath source : String) (sfc : Sfc) : List Part :=
  (extractScriptBlocks tools source).map
    (sfc.part tools filePath (sfc.owner filePath source) (componentNode filePath source sfc).id)

/-- Whatever the template adds, the nodes are those of the parts, and only calls come behind their edges. -/
theorem Sfc.extract_grown : (sfc.extract tools filePath source).nodes =
      sfcFileNode filePath source sfc.language :: componentNode filePath source sfc ::
        (sfc.parts tools filePath source).flatMap (fun part => part.moved.nodes) ∧
    (∃ calls, (sfc.extract tools filePath source).edges =
      containsEdge (fileNodeId filePath) (componentNode filePath source sfc).id ::
        (sfc.parts tools filePath source).flatMap (fun part => part.moved.edges) ++ calls ∧
          ∀ edge ∈ calls, edge.kind ≠ .contains) ∧
    (((sfc.parts tools filePath source).flatMap fun part => part.moved.unresolvedReferences).filter
      sfc.keepsReference).Sublist
      (sfc.extract tools filePath source).unresolvedReferences := by
  have grown := @Sfc.run_grown tools filePath _ _ sfc (extractScriptBlocks tools source) _
    (@sfcStart_opened filePath source sfc)
  cases sfc with
  | vue =>
    obtain ⟨nodes, ⟨calls, edges, kinds⟩, references⟩ := @extractTemplateCalls_keeps tools filePath source
      (componentNode filePath source .vue).id
      { (extractScriptBlocks tools source).foldl
        (processScriptBlock tools filePath (componentNode filePath source .vue).id)
          (sfcStart filePath .vue source) with
        unresolvedReferences :=
          ((extractScriptBlocks tools source).foldl
            (processScriptBlock tools filePath (componentNode filePath source .vue).id)
            (sfcStart filePath .vue source)).unresolvedReferences ++ tools.templateReferences source }
    refine ⟨nodes.trans grown.nodes, ⟨calls, edges.trans (congrArg (· ++ calls) grown.edges), ?_⟩, ?_⟩
    · intro edge member contains
      exact absurd ((kinds edge member).symm.trans contains) (by decide)
    · have all : ((Sfc.vue.parts tools filePath source).flatMap fun part => part.moved.unresolvedReferences).filter
        Sfc.vue.keepsReference =
          (Sfc.vue.parts tools filePath source).flatMap fun part => part.moved.unresolvedReferences :=
            filter_true _
      rw [all]
      refine .trans ?_ references.sublist
      exact grown.moved_references.trans (sublist_append_left _ _)
  | svelte =>
    refine ⟨grown.nodes, ⟨[], ?_, fun _ member => absurd member not_mem_nil⟩, ?_⟩
    · exact grown.edges.trans (append_nil _).symm
    · refine .filter _ ?_
      exact grown.moved_references.trans (sublist_append_left _ _)

theorem Sfc.extract_joins (extracted : ∀ block ∈ extractScriptBlocks tools source,
      WellExtracted filePath (tools.extractSource block.content (scriptLanguage block))) :
    Joins filePath (sfcFileNode filePath source sfc.language) (componentNode filePath source sfc)
    (sfc.parts tools filePath source)
      (sfc.extract tools filePath source) where
  named := rfl
  nodes := Sfc.extract_grown.1
  edges := Sfc.extract_grown.2.1
  joined := by
    intro part member
    obtain ⟨block, inside, rfl⟩ := mem_map.mp member
    exact Sfc.part_joined (extracted block inside)

/-- What a part moves, it moves by the offset of its block. -/
theorem Part.moved_lines (part : Part) : MovedBy part.fold.filePath part.fold.lineOffset part.delegated
    { part.moved with edges := (part.fold.keptEdges part.delegated).map (part.fold.foldEdge part.delegated) } where
  nodes := by
    show List.Forall₂ _ _ ([] ++ part.delegated.declarations.map part.fold.foldNode)
    rw [nil_append, forall₂_map_right_iff]
    exact forall₂_same.mpr fun node _ => ⟨rfl, rfl, rfl, rfl, rfl⟩
  edges := by
    rw [forall₂_map_right_iff]
    exact forall₂_same.mpr fun edge _ => ⟨rfl, rfl, rfl⟩
  references := by
    show List.Forall₂ _ _ ([] ++ part.delegated.unresolvedReferences.map (part.fold.foldReference part.delegated))
    rw [nil_append, forall₂_map_right_iff]
    exact forall₂_same.mpr fun reference _ => ⟨rfl, rfl, rfl⟩

/-- The blocks of a component are moved by their own lines. -/
theorem Sfc.lines_moved : LinesMoved tools filePath source sfc := by
  obtain ⟨nodes, ⟨calls, edges, -⟩, references⟩ := @Sfc.extract_grown tools filePath source sfc
  refine ⟨(sfc.parts tools filePath source).map fun part =>
    { part.moved with edges := (part.fold.keptEdges part.delegated).map (part.fold.foldEdge part.delegated) }, ?_, ?_,
      ?_, ?_⟩
  · rw [Sfc.parts, map_map, forall₂_map_right_iff]
    exact forall₂_same.mpr fun block _ => (sfc.part tools filePath (sfc.owner filePath source) _ block).moved_lines
  · rw [nodes, flatMap_map]
  · rw [edges, flatMap_map]
    refine .trans ?_ (sublist_append_left _ _)
    refine .cons _ ?_
    induction sfc.parts tools filePath source with
    | nil => exact .refl _
    | cons part rest ih => exact (sublist_append_right _ _).append ih
  · rw [flatMap_map]
    exact references

section Groups

variable {idGroups : List (List String)} {groups : List (List Identity)}

theorem stands_of_mem {ids : List String} (stands : List.Forall₂ (Stands filePath) idGroups groups)
    (member : ids ∈ idGroups) : ∃ identities ∈ groups, Stands filePath ids identities := by
  induction stands with
  | nil => cases member
  | cons stand _ ih =>
    rcases mem_cons.mp member with rfl | later
    · exact ⟨_, mem_cons_self .., stand⟩
    · obtain ⟨identities, inside, own⟩ := ih later
      exact ⟨identities, mem_cons_of_mem _ inside, own⟩

/-- Ids of a group meet those of no other group exactly when the identities do not. -/
theorem stands_apart {ids : List String} {identities : List Identity}
    (stands : List.Forall₂ (Stands filePath) idGroups groups)
    (own : Stands filePath ids identities) (apart : NoCollision filePath (identities ++ groups.flatten)) :
    (∀ other ∈ idGroups, ids.Disjoint other) ↔ ∀ other ∈ groups, identities.Disjoint other := by
  induction stands with
  | nil => simp
  | @cons first second firsts seconds stand _ ih =>
    have one := disjoint_iff own stand fun left leftIn right rightIn =>
      apart left (mem_append.mpr ((mem_append.mp leftIn).imp_right (mem_append_left _)))
      right (mem_append.mpr ((mem_append.mp rightIn).imp_right (mem_append_left _)))
    have later := ih fun left leftIn right rightIn =>
      apart left (mem_append.mpr ((mem_append.mp leftIn).imp_right (mem_append_right _)))
      right (mem_append.mpr ((mem_append.mp rightIn).imp_right (mem_append_right _)))
    rw [forall_mem_cons, forall_mem_cons, one, later]

/-- Groups of ids are apart exactly when the identities behind them are. -/
theorem pairwise_disjoint_iff (stands : List.Forall₂ (Stands filePath) idGroups groups)
    (apart : NoCollision filePath groups.flatten) :
    idGroups.Pairwise List.Disjoint ↔ groups.Pairwise List.Disjoint := by
  induction stands with
  | nil => simp
  | cons stand rest ih =>
    have later := ih fun left leftIn right rightIn =>
      apart left (mem_append_right _ leftIn) right (mem_append_right _ rightIn)
    rw [pairwise_cons, pairwise_cons, stands_apart rest stand apart, later]

end Groups

/-- The ids of a file, grouped as they were given. -/
def Part.idGroups (part : Part) : List (List String) :=
  part.extracted.declarations.map Node.id :: part.members.map fun member => [member.id]

theorem Part.Joined.idGroups_flatten {componentId : String} {part : Part} (joined : part.Joined filePath componentId) :
    part.idGroups.flatten = part.ids := by
  rw [Part.ids, joined.nodes, map_append, Part.idGroups, flatten_cons]
  congr 1
  induction part.members with
  | nil => rfl
  | cons member rest ih => exact congrArg (member.id :: ·) ih

theorem Part.Joined.idGroups_nodup {componentId : String} {part : Part} (joined : part.Joined filePath componentId)
    {ids : List String} (member : ids ∈ part.idGroups) : ids.Nodup := by
  rcases mem_cons.mp member with rfl | single
  · exact joined.extracted.distinct
  · obtain ⟨node, -, rfl⟩ := mem_map.mp single
    exact nodup_singleton _

theorem WellExtracted.stands {result : ExtractionResult} (extracted : WellExtracted filePath result) :
    Stands filePath (result.declarations.map Node.id) (result.declarations.map identityOf) := by
  obtain ⟨columns, length, allocated⟩ := extracted.allocated
  have all := @stands_allocate filePath ((result.declarations.map identityOf).zip columns)
  rw [← allocated, map_fst_zip (by rw [length_map, length])] at all
  exact all

/-- The ids of a component file are given out group by group to its identities. -/
theorem Sfc.stands (extracted : ∀ block ∈ extractScriptBlocks tools source,
      WellExtracted filePath (tools.extractSource block.content (scriptLanguage block))) :
    List.Forall₂ (Stands filePath)
    ([(componentNode filePath source sfc).id] :: (sfc.parts tools filePath source).flatMap Part.idGroups)
      (sfc.identities tools filePath source) := by
  refine .cons stands_single ?_
  rw [Sfc.parts]
  generalize extractScriptBlocks tools source = blocks at extracted ⊢
  induction blocks with
  | nil => exact .nil
  | cons block rest ih =>
    refine rel_append (.cons (extracted block (mem_cons_self ..)).stands ?_)
      (ih fun other inside => extracted other (mem_cons_of_mem _ inside))
    show List.Forall₂ _ (((sfc.optionsMembers tools block).map (createMember filePath _ block.lineOffset)).map _) _
    rw [map_map, forall₂_map_left_iff, forall₂_map_right_iff]
    exact forall₂_same.mpr fun member _ => stands_single

theorem identities_notFile {identities : List Identity} {identity : Identity}
    (group : identities ∈ sfc.identities tools filePath source)
    (member : identity ∈ identities) : identity.kind ≠ .file := by
  rcases mem_cons.mp group with rfl | later
  · rw [mem_singleton.mp member]
    exact NodeKind.noConfusion
  · obtain ⟨block, -, own⟩ := mem_flatMap.mp later
    rcases mem_cons.mp own with rfl | single
    · obtain ⟨node, declared, rfl⟩ := mem_map.mp member
      exact of_decide_eq_true (mem_filter.mp declared).2
    · obtain ⟨named, -, rfl⟩ := mem_map.mp single
      rw [mem_singleton.mp member]
      exact NodeKind.noConfusion

/-- No declaration takes the id of its file. -/
theorem Sfc.group_without_file {ids : List String} (extracted : ∀ block ∈ extractScriptBlocks tools source,
      WellExtracted filePath (tools.extractSource block.content (scriptLanguage block)))
    (member : ids ∈ [(componentNode filePath source sfc).id] ::
      (sfc.parts tools filePath source).flatMap Part.idGroups) : fileNodeId filePath ∉ ids := by
  intro own
  obtain ⟨identities, group, stand⟩ := stands_of_mem (@Sfc.stands tools filePath source sfc extracted) member
  obtain ⟨identity, inside, suffix, named⟩ := stand.begins _ own
  exact fileNodeId_ne (identities_notFile group inside) suffix named.symm

/-- Every node of a component file has an identity and a place of its own, at its line of the file, exactly when no
two of its groups of identities meet. -/
theorem component_identified_iff (extracted : ∀ block ∈ extractScriptBlocks tools source,
      WellExtracted filePath (tools.extractSource block.content (scriptLanguage block)))
    (apart : NoCollision filePath (sfc.identities tools filePath source).flatten) :
    (Identified filePath (sfc.extract tools filePath source) ∧ LinesMoved tools filePath source sfc) ↔
      (sfc.identities tools filePath source).Pairwise List.Disjoint := by
  have joins := @Sfc.extract_joins tools filePath source sfc extracted
  have stands := @Sfc.stands tools filePath source sfc extracted
  have ids : (componentNode filePath source sfc).id :: (sfc.parts tools filePath source).flatMap Part.ids =
      ([(componentNode filePath source sfc).id] ::
        (sfc.parts tools filePath source).flatMap Part.idGroups).flatten := by
    rw [flatten_cons, singleton_append]
    congr 1
    rw [@flatMap_def _ _ _ Part.idGroups, flatten_flatten, map_map]
    exact flatMap_congr fun part member => (joins.joined part member).idGroups_flatten.symm
  have file : fileNodeId filePath ∉
      ([(componentNode filePath source sfc).id] ::
        (sfc.parts tools filePath source).flatMap Part.idGroups).flatten := by
    intro member
    obtain ⟨group, inside, own⟩ := mem_flatten.mp member
    exact absurd own (Sfc.group_without_file extracted inside)
  have nodup : ∀ group ∈ [(componentNode filePath source sfc).id] ::
    (sfc.parts tools filePath source).flatMap Part.idGroups, group.Nodup := by
    intro group member
    rcases mem_cons.mp member with rfl | later
    · exact nodup_singleton _
    · obtain ⟨part, inside, own⟩ := mem_flatMap.mp later
      exact (joins.joined part inside).idGroups_nodup own
  rw [and_iff_left Sfc.lines_moved, joins.identified_iff, joins.ids, ids, nodup_cons, and_iff_right file,
    nodup_flatten, and_iff_right nodup, pairwise_disjoint_iff stands apart]

/-- A class with one method behind the line break of a tag, and an empty line in front of it or none. -/
def classText (name : String) (gap : Bool) : String :=
  "\nclass " ++ name ++ " \x7b\n" ++ (if gap then "\n" else "") ++ "  run() \x7b\x7d\n\x7d\n"

def methodLine (gap : Bool) : Int := if gap then 4 else 3

def classNode (name : String) (gap : Bool) : Node :=
  defaultNode "Card.vue" .javaScript .class_ name name 2 (methodLine gap + 1) 0 1

def methodNode (name : String) (gap : Bool) : Node :=
  defaultNode "Card.vue" .javaScript .method "run" (name ++ "::run") (methodLine gap) (methodLine gap) 2 10

def classResult (name : String) (gap : Bool) : ExtractionResult where
  nodes := [sfcFileNode "Card.vue" (classText name gap) .javaScript, classNode name gap, methodNode name gap]
  edges := [containsEdge (fileNodeId "Card.vue") (classNode name gap).id,
    containsEdge (classNode name gap).id (methodNode name gap).id]
  unresolvedReferences := []
  errors := []
  durationMs := 0

/-- The first block holds the class `A`, and the second one the class `B`. -/
def classCaptures (gap : Bool) : List Capture :=
  [⟨"", "<script>" ++ classText "A" false ++ "</script>", none, some (classText "A" false)⟩,
    ⟨"<script>" ++ classText "A" false ++ "</script>\n", "<script setup>" ++ classText "B" gap ++ "</script>",
      some " setup", some (classText "B" gap)⟩]

def classSource (gap : Bool) : String :=
  "<script>" ++ classText "A" false ++ "</script>\n<script setup>" ++ classText "B" gap ++ "</script>\n"

def classTools (gap : Bool) : Toolkit where
  capturesIter _ text := if text = classSource gap then classCaptures gap else []
  isMatch pattern text := pattern = "\\bsetup\\b" && text = " setup"
  extractSource content _ := if content = classText "A" false then classResult "A" false else classResult "B" gap
  vueOptionsMembers _ := []
  vueTemplateCalls _ := []
  templateReferences _ := []

/-- A class with a method is well extracted. -/
theorem classResult_wellExtracted (name : String) (gap : Bool) : WellExtracted "Card.vue" (classResult name gap) := by
  have declared : (classResult name gap).declarations = [classNode name gap, methodNode name gap] := rfl
  have named : (methodNode name gap).id = generateNodeId "Card.vue" (identityOf (methodNode name gap)) := by
    cases gap <;> rfl
  have apart : (classNode name gap).id ≠ (methodNode name gap).id := by
    rw [named]
    exact fun same => NodeKind.noConfusion (generateNodeId_kind same)
  constructor
  · rw [declared]
    simpa using apart
  · refine ⟨[0, 2], rfl, ?_⟩
    have fresh : ((methodNode name gap).id == (classNode name gap).id) = false := beq_eq_false_iff_ne.mpr apart.symm
    rw [declared]
    have first : (classNode name gap).id = generateNodeId "Card.vue" (identityOf (classNode name gap)) := rfl
    simp only [map_cons, map_nil, zip_cons_cons, zip_nil_right, NodeIdAllocator.allocate,
      NodeIdAllocator.generate, ← named, ← first, lookup_nil, lookup_cons, fresh]
  · rw [declared]
    simp [classResult, containsEdge]
  · intro front node back parts
    rw [declared] at parts
    rcases front with _ | ⟨other, _ | ⟨third, rest⟩⟩
    · obtain ⟨rfl, -⟩ := cons.inj parts
      exact ⟨containsEdge (fileNodeId "Card.vue") (classNode name gap).id, by
        simp [classResult, parentEdges, containsEdge, apart.symm], .inl rfl⟩
    · obtain ⟨rfl, later⟩ := cons.inj parts
      obtain ⟨rfl, -⟩ := cons.inj later
      exact ⟨containsEdge (classNode name gap).id (methodNode name gap).id, by
        simp [classResult, parentEdges, containsEdge, apart],
        .inr (mem_singleton_self _)⟩
    · simp at parts

theorem classTools_wellExtracted (gap : Bool) (content : String) (language : Language) :
    WellExtracted "Card.vue" ((classTools gap).extractSource content language) := by
  simp only [classTools]
  split <;> exact classResult_wellExtracted _ _

/-- Two classes in two blocks have their methods at different lines of their blocks. -/
theorem component_identified_iff_class :
    Identified "Card.vue" (Sfc.vue.extract (classTools true) "Card.vue" (classSource true)) ∧
      LinesMoved (classTools true) "Card.vue" (classSource true) .vue := by
  have apart : NoCollision "Card.vue" (Sfc.vue.identities (classTools true) "Card.vue" (classSource true)).flatten :=
    noCollision_of_nodup (.refl _) (by decide +kernel)
  refine (component_identified_iff (fun _ _ => classTools_wellExtracted ..) apart).mpr ?_
  show List.Pairwise (fun first second => ∀ identity ∈ first, identity ∈ second → False) _
  decide +kernel

/-- Two classes in two blocks have their methods at one line of their blocks. -/
theorem methods_share_an_id : (∀ block ∈ extractScriptBlocks (classTools false) (classSource false),
      WellExtracted "Card.vue" ((classTools false).extractSource block.content (scriptLanguage block))) ∧
      NoCollision "Card.vue" (Sfc.vue.identities (classTools false) "Card.vue" (classSource false)).flatten ∧
      ¬ ((Sfc.vue.extract (classTools false) "Card.vue" (classSource false)).nodes.map Node.id).Nodup := by
  have ids : (Sfc.vue.extract (classTools false) "Card.vue" (classSource false)).nodes.map Node.id =
      [fileNodeId "Card.vue", (componentNode "Card.vue" (classSource false) .vue).id, (classNode "A" false).id,
        (methodNode "A" false).id, (classNode "B" false).id, (methodNode "B" false).id] := by rfl
  have shared : (methodNode "A" false).id = (methodNode "B" false).id := rfl
  refine ⟨fun block _ => classTools_wellExtracted .., ?_, ?_⟩
  · exact noCollision_of_nodup
      (show _ ⊆ [⟨.component, "Card", 1⟩, ⟨.class_, "A", 2⟩, ⟨.method, "run", 3⟩, ⟨.class_, "B", 2⟩] by
        decide +kernel) (by decide +kernel)
  · rw [ids, shared]
    simp

end Codegraph.Embedded
