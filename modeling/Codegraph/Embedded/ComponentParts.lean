import Codegraph.Embedded.Components

/- This file shows that the blocks of a component join it as parts, each moved by its own lines. -/

namespace Codegraph.Embedded
open Codegraph.Core List

variable {tools : Toolkit} {filePath source owner componentId : String} {sfc : Sfc} {block : ScriptBlock}
  {blocks : List ScriptBlock} {state result : ExtractionResult}

section Parts

variable (tools filePath owner)

def Sfc.optionsMembers (block : ScriptBlock) : Sfc → List OptionsMember
  | .vue => if isSetup tools block then [] else tools.vueOptionsMembers block.content
  | .svelte => []

/-- What a block gives its component, the members of its options object included. -/
def Sfc.delegated (block : ScriptBlock) : Sfc → ExtractionResult
  | .vue =>
    let extracted := tools.extractSource block.content (scriptLanguage block)
    if isSetup tools block then extracted else addOptionsMembers tools filePath owner block extracted
  | .svelte => tools.extractSource block.content (scriptLanguage block)

def Sfc.perInstance (block : ScriptBlock) : Sfc → Bool
  | .vue => isSetup tools block
  | .svelte => !isModule tools block

def Sfc.part (sfc : Sfc) (componentId : String) (block : ScriptBlock) : Part where
  extracted := tools.extractSource block.content (scriptLanguage block)
  members := (sfc.optionsMembers tools block).map (createMember filePath owner block.lineOffset)
  delegated := sfc.delegated tools filePath owner block
  fold := ⟨filePath, componentId, block.lineOffset, sfc.language, sfc.perInstance tools block⟩

/-- One step of the loop over the blocks. -/
def Sfc.step (componentId : String) : Sfc → ExtractionResult → ScriptBlock → ExtractionResult
  | .vue => processScriptBlock tools filePath componentId
  | .svelte => foldSvelteBlock tools filePath componentId

end Parts

/-- What a part adds to its component. -/
def Part.moved (part : Part) : ExtractionResult := foldScriptResult part.fold part.delegated (emptyResult 0)

/-- The component stands behind its file, under its own name. -/
structure Opened (componentId owner : String) (state : ExtractionResult) : Prop where
  found : (state.nodes.find? (·.id = componentId)).map Node.name = some owner

/-- A state has grown by what some parts add to it. -/
structure Grown (parts : List Part) (state next : ExtractionResult) : Prop where
  nodes : next.nodes = state.nodes ++ parts.flatMap fun part => part.moved.nodes
  edges : next.edges = state.edges ++ parts.flatMap fun part => part.moved.edges
  references : next.unresolvedReferences = state.unresolvedReferences ++ parts.flatMap fun part =>
    part.moved.unresolvedReferences

theorem Grown.moved_references {parts : List Part} {next : ExtractionResult} (grown : Grown parts state next) :
    (parts.flatMap fun part => part.moved.unresolvedReferences).Sublist next.unresolvedReferences := by
  rw [grown.references]
  exact sublist_append_right _ _

/-- The members of the options object become declarations behind those there were. -/
theorem addOptionsMembers_declarations (extracted : ExtractionResult) :
    (addOptionsMembers tools filePath owner block extracted).declarations =
      extracted.declarations ++
        (tools.vueOptionsMembers block.content).map (createMember filePath owner block.lineOffset) := by
  have methods (members : List OptionsMember) : (members.map (createMember filePath owner block.lineOffset)).filter
    (·.kind ≠ .file) =
      members.map (createMember filePath owner block.lineOffset) := by
    rw [filter_eq_self]
    intro node member
    obtain ⟨origin, -, rfl⟩ := mem_map.mp member
    rfl
  rw [addOptionsMembers]
  split
  · rename_i none
    rw [isEmpty_iff.mp none, map_nil, append_nil]
  · rw [ExtractionResult.declarations, filter_append, methods]
    rfl

theorem filter_contains_map {change : Edge → Edge} (kinds : ∀ edge, (change edge).kind = edge.kind)
    (kept : ∀ edge, edge.kind = .contains → change edge = edge) (edges : List Edge) :
    ((edges.map change).filter fun edge => edge.kind = .contains) = edges.filter fun edge => edge.kind = .contains := by
  have same : ((fun edge : Edge => decide (edge.kind = .contains)) ∘ change) = fun edge =>
    decide (edge.kind = .contains) := by
    funext edge
    simp only [Function.comp_apply, kinds]
  rw [filter_map, same]
  exact (map_congr_left fun edge member => kept edge (of_decide_eq_true (mem_filter.mp member).2)).trans
    (map_id _)

/-- Who does something changes, and who holds something does not. -/
theorem addOptionsMembers_holding (extracted : ExtractionResult) :
    ((addOptionsMembers tools filePath owner block extracted).edges.filter fun edge => edge.kind = .contains) =
      extracted.edges.filter fun edge => edge.kind = .contains := by
  rw [addOptionsMembers]
  split
  · rfl
  · apply filter_contains_map
    · intro edge
      split
      · rfl
      · split <;> rfl
    · intro edge contains
      exact if_pos (.inl contains)

/-- The part of a block is joined to its component. -/
theorem Sfc.part_joined
    (extracted : WellExtracted filePath (tools.extractSource block.content (scriptLanguage block))) :
    (sfc.part tools filePath owner componentId block).Joined filePath componentId where
  file := rfl
  component := rfl
  extracted := extracted
  nodes := by
    cases sfc with
    | svelte => exact (append_nil _).symm
    | vue =>
      show (Sfc.delegated tools filePath owner block .vue).declarations =
        _ ++ (Sfc.optionsMembers tools block .vue).map (createMember filePath owner block.lineOffset)
      rw [Sfc.delegated, Sfc.optionsMembers]
      split
      · exact (append_nil _).symm
      · exact addOptionsMembers_declarations _
  holding := by
    cases sfc with
    | svelte => rfl
    | vue =>
      show ((Sfc.delegated tools filePath owner block .vue).edges.filter _) = _
      rw [Sfc.delegated]
      split
      · rfl
      · exact addOptionsMembers_holding _

/-- One block adds its part. -/
theorem Sfc.step_grown (opened : Opened componentId owner state) :
    Grown [sfc.part tools filePath owner componentId block] state
      (sfc.step tools filePath componentId state block) := by
  cases sfc with
  | vue =>
    have named : ((state.nodes.find? (·.id = componentId)).map Node.name).getD "component" = owner := by
      rw [opened.found]
      rfl
    constructor <;>
      simp only [Sfc.step, processScriptBlock, named, flatMap_cons, flatMap_nil, append_nil] <;> rfl
  | svelte =>
    constructor <;> simp [Sfc.step, foldSvelteBlock, Sfc.part, Part.moved, foldScriptResult, emptyResult,
      Sfc.delegated, Sfc.perInstance,
      Sfc.language]

theorem Opened.step (opened : Opened componentId owner state) :
    Opened componentId owner (sfc.step tools filePath componentId state block) := by
  obtain ⟨node, found, named⟩ := Option.map_eq_some_iff.mp opened.found
  refine ⟨?_⟩
  rw [(Sfc.step_grown opened).nodes, find?_append, found]
  exact congrArg some named

/-- The blocks add their parts in order. -/
theorem Sfc.run_grown (opened : Opened componentId owner state) :
    Grown (blocks.map (sfc.part tools filePath owner componentId)) state
      (blocks.foldl (sfc.step tools filePath componentId) state) := by
  induction blocks generalizing state with
  | nil => exact ⟨(append_nil _).symm, (append_nil _).symm, (append_nil _).symm⟩
  | cons block rest ih =>
    have one := @Sfc.step_grown tools filePath owner componentId sfc block state opened
    have later := ih (@Opened.step tools filePath owner componentId sfc block state opened)
    constructor
    · rw [foldl_cons, later.nodes, one.nodes, append_assoc]
      simp
    · rw [foldl_cons, later.edges, one.edges, append_assoc]
      simp
    · rw [foldl_cons, later.references, one.references, append_assoc]
      simp

/-- A call from the template adds an edge of the component or a reference, and nothing else. -/
theorem extractTemplateCalls_keeps (state : ExtractionResult) :
    (extractTemplateCalls tools filePath source componentId state).nodes = state.nodes ∧
      (∃ calls, (extractTemplateCalls tools filePath source componentId state).edges = state.edges ++ calls ∧
        ∀ edge ∈ calls, edge.kind = .calls) ∧
      state.unresolvedReferences <+:
        (extractTemplateCalls tools filePath source componentId state).unresolvedReferences := by
  have run (ownMethods : List Node) (calls : List TemplateCall) (state : ExtractionResult × LineCursor) :
      (calls.foldl (extractTemplateCall filePath componentId ownMethods) state).1.nodes = state.1.nodes ∧
        (∃ added, (calls.foldl (extractTemplateCall filePath componentId ownMethods) state).1.edges = state.1.edges ++
          added ∧
          ∀ edge ∈ added, edge.kind = .calls) ∧
        state.1.unresolvedReferences <+:
          (calls.foldl (extractTemplateCall filePath componentId ownMethods) state).1.unresolvedReferences := by
    induction calls generalizing state with
    | nil =>
      exact ⟨rfl, ⟨[], (append_nil _).symm, fun _ member => absurd member not_mem_nil⟩, prefix_rfl⟩
    | cons call rest ih =>
      obtain ⟨nodes, ⟨added, edges, calls⟩, references⟩ :=
        ih (extractTemplateCall filePath componentId ownMethods state call)
      rw [foldl_cons, nodes, edges]
      rw [extractTemplateCall] at references ⊢
      dsimp only at references ⊢
      split
      · rename_i method found
        rw [found] at references
        refine ⟨rfl, ⟨_ :: added, append_assoc .., ?_⟩, references⟩
        intro edge member
        rcases mem_cons.mp member with rfl | later
        · rfl
        · exact calls edge later
      · rename_i found
        rw [found] at references
        exact ⟨rfl, ⟨added, rfl, calls⟩, (prefix_append _ _).trans references⟩
  rw [extractTemplateCalls]
  dsimp only
  split
  · exact ⟨rfl, ⟨[], (append_nil _).symm, fun _ member => absurd member not_mem_nil⟩, prefix_rfl⟩
  · exact run _ _ _

end Codegraph.Embedded
