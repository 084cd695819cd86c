import Codegraph.Embedded.ScriptFold

/- This file models the extraction of single-file components and shows when their nodes stay apart. -/

namespace Codegraph.Embedded
open Codegraph.Core

/-- A match of the script pattern: the text before it, its own text, its attributes and its content. -/
structure Capture where
  before : String
  whole : String
  attrs : Option String
  content : Option String

/-- A function of an options object, by the texts of the script that end where it starts and where it ends. -/
structure OptionsMember where
  name : String
  upToStart : String
  upToEnd : String

structure TemplateCall where
  name : String
  offset : Nat

/-- What the extraction of a component calls: the regular expressions, the extractor of scripts, and the readers of
options and templates. -/
structure Toolkit where
  capturesIter : String → String → List Capture
  isMatch : String → String → Bool
  extractSource : String → Language → ExtractionResult
  vueOptionsMembers : String → List OptionsMember
  vueTemplateCalls : String → List TemplateCall
  templateReferences : String → List UnresolvedRef

structure ScriptBlock where
  content : String
  lineOffset : Nat
  attrs : String
  isTypescript : Bool

inductive Sfc where
  | vue
  | svelte
  deriving DecidableEq

def Sfc.language : Sfc → Language
  | .vue => .vue
  | .svelte => .svelte

def Sfc.suffix : Sfc → String
  | .vue => ".vue"
  | .svelte => ".svelte"

def newlines (text : String) : Nat := text.toList.count '\n'

def lastLineBytes (text : String) : Nat := ((text.toList.reverse.takeWhile (· ≠ '\n')).map Char.utf8Size).sum

def fileName (filePath : String) : String := String.ofList ((filePath.toList.splitOn '/').getLastD [])

def stripSuffix (text suffix : String) : String :=
  if suffix.toList <:+ text.toList then String.ofList (text.toList.take (text.toList.length - suffix.toList.length))
    else text

def defaultNode (filePath : String) (language : Language) (kind : NodeKind) (name qualifiedName : String)
    (startLine endLine startColumn endColumn : Int) : Node where
  id := generateNodeId filePath ⟨kind, name, (max startLine 1).toNat⟩
  kind := kind
  name := name
  qualifiedName := qualifiedName
  filePath := filePath
  language := language
  startLine := startLine
  endLine := endLine
  startColumn := startColumn
  endColumn := endColumn
  docstring := none
  signature := none
  visibility := none
  isExported := false
  isAsync := false
  isStatic := false
  isAbstract := false
  decorators := []
  typeParameters := []
  returnType := none
  updatedAt := 0

def sfcFileNode (filePath source : String) (language : Language) : Node :=
  { defaultNode filePath language .file (fileName filePath) filePath 1 (newlines source + 1) 0 0 with
    id := fileNodeId filePath }

def componentNode (filePath source : String) (sfc : Sfc) : Node :=
  let name := stripSuffix (fileName filePath) sfc.suffix
  { defaultNode filePath sfc.language .component name (filePath ++ "::" ++ name) 1 (newlines source + 1) 0
    (lastLineBytes source) with
    isExported := true }

section Blocks

variable (tools : Toolkit) (filePath : String)

/-- The offset of a block counts the lines before its tag and those inside the tag. -/
def extractScriptBlocks (source : String) : List ScriptBlock :=
  (tools.capturesIter "(?s)<script(\\s[^>]*)?>(.*?)</script>" source).map fun capture =>
    let attrs := capture.attrs.getD ""
    { content := capture.content.getD ""
      lineOffset := newlines capture.before + (capture.whole.toList.takeWhile (· ≠ '>')).count '\n'
      attrs := attrs
      isTypescript := tools.isMatch "lang\\s*=\\s*[\"'](ts|typescript)[\"']" attrs }

def scriptLanguage (block : ScriptBlock) : Language := if block.isTypescript then .typeScript else .javaScript

def lineAt (text : String) : Int := newlines text + 1

/-- The line of a member in its file, as far as an id can count. -/
def memberLine (lineOffset : Nat) (member : OptionsMember) : Nat :=
  min (newlines member.upToStart + 1 + lineOffset) 4294967295

def memberIdentity (owner : String) (lineOffset : Nat) (member : OptionsMember) : Identity :=
  ⟨.method, owner ++ "." ++ member.name, memberLine lineOffset member⟩

def createMember (owner : String) (lineOffset : Nat) (member : OptionsMember) : Node :=
  { defaultNode filePath .vue .method member.name (owner ++ "::" ++ member.name) (lineAt member.upToStart)
    (lineAt member.upToEnd)
      (lastLineBytes member.upToStart) (lastLineBytes member.upToEnd) with
    id := generateNodeId filePath (memberIdentity owner lineOffset member) }

/-- The innermost member of a line. -/
def memberAt (created : List Node) (line : Int) : Option Node :=
  created.foldl
    (fun best node =>
      if node.startLine ≤ line ∧ line ≤ node.endLine ∧
        best.all (fun best => best.startLine ≤ node.startLine) then some node else best) none

/-- What the extractor of scripts gave to the file is given to the member around it. -/
def addOptionsMembers (owner : String) (block : ScriptBlock) (result : ExtractionResult) : ExtractionResult :=
  let members := tools.vueOptionsMembers block.content
  if members.isEmpty then result
  else
    let created := members.map (createMember filePath owner block.lineOffset)
    { result with
      unresolvedReferences := result.unresolvedReferences.map fun reference =>
        if reference.fromNodeId ≠ fileNodeId filePath then reference
        else
          match memberAt created reference.line with
          | some member => { reference with fromNodeId := member.id }
          | none => reference
      edges := result.edges.map fun edge =>
        if edge.kind = .contains ∨ edge.source ≠ fileNodeId filePath then edge
        else
          match edge.line.bind (memberAt created) with
          | some member => { edge with source := member.id }
          | none => edge
      nodes := result.nodes ++ created }

def isSetup (block : ScriptBlock) : Bool := tools.isMatch "\\bsetup\\b" block.attrs

def isModule (block : ScriptBlock) : Bool :=
  tools.isMatch "context\\s*=\\s*[\"']module[\"']|(?:^|\\s)module(?:[\\s=]|$)" block.attrs

def processScriptBlock (componentId : String) (state : ExtractionResult) (block : ScriptBlock) : ExtractionResult :=
  let extracted := tools.extractSource block.content (scriptLanguage block)
  let owner := ((state.nodes.find? (·.id = componentId)).map Node.name).getD "component"
  let delegated := if isSetup tools block then extracted else addOptionsMembers tools filePath owner block extracted
  let merged := foldScriptResult ⟨filePath, componentId, block.lineOffset, .vue, isSetup tools block⟩ delegated
    (emptyResult 0)
  { state with
    nodes := state.nodes ++ merged.nodes
    edges := state.edges ++ merged.edges
    unresolvedReferences := state.unresolvedReferences ++ merged.unresolvedReferences
    errors := state.errors ++ merged.errors }

end Blocks

/-- The byte after each line break, and the start of the text. -/
def lineStarts (source : String) : List Nat :=
  0 :: (source.toList.foldl
    (fun (place : Nat × List Nat) c =>
      (place.1 + c.utf8Size, if c = '\n' then place.2 ++ [place.1 + c.utf8Size] else place.2)) (0, [])).2

/-- A line, its start, and the starts of the lines behind it. -/
structure LineCursor where
  line : Nat
  start : Nat
  later : List Nat

def LineCursor.advanceFrom (offset line start : Nat) : List Nat → LineCursor
  | [] => ⟨line, start, []⟩
  | next :: later =>
    if next ≤ offset then .advanceFrom offset (line + 1) next later else ⟨line, start, next :: later⟩

section Extraction

variable (tools : Toolkit) (filePath : String)

/-- A call of a component's own method is an edge, and any other one a reference. -/
def extractTemplateCall (componentId : String) (ownMethods : List Node) (state : ExtractionResult × LineCursor)
    (call : TemplateCall) :
    ExtractionResult × LineCursor :=
  let cursor := .advanceFrom call.offset state.2.line state.2.start state.2.later
  let line : Int := cursor.line + 1
  let column : Int := (call.offset : Int) - cursor.start
  match if '.' ∈ call.name.toList then none else ownMethods.reverse.find? (·.name = call.name) with
  | some method =>
    ({ state.1 with edges :=
      state.1.edges ++ [⟨none, componentId, method.id, .calls, none, some line, some column, none⟩] }, cursor)
  | none =>
    ({ state.1 with
      unresolvedReferences := state.1.unresolvedReferences ++
        [⟨none, componentId, call.name, .calls, line, column, none, filePath, .vue, false, none⟩] }, cursor)

def extractTemplateCalls (source componentId : String) (state : ExtractionResult) : ExtractionResult :=
  let calls := tools.vueTemplateCalls source
  if calls.isEmpty then state
  else
    let owner := ((state.nodes.find? (·.id = componentId)).map Node.name).getD ""
    let ownMethods :=
      state.nodes.filter fun node => node.kind = .method ∧ node.qualifiedName = owner ++ "::" ++ node.name
    (calls.foldl (extractTemplateCall filePath componentId ownMethods) (state, ⟨0, 0, (lineStarts source).tail⟩)).1

/-- The file and the component, before any block joins them. -/
def sfcStart (sfc : Sfc) (source : String) : ExtractionResult :=
  let file := sfcFileNode filePath source sfc.language
  let component := componentNode filePath source sfc
  { emptyResult 0 with nodes := [file, component], edges := [containsEdge file.id component.id] }

def extractVue (source : String) : ExtractionResult :=
  let componentId := (componentNode filePath source .vue).id
  let scripts := (extractScriptBlocks tools source).foldl (processScriptBlock tools filePath componentId)
    (sfcStart filePath .vue source)
  extractTemplateCalls tools filePath source componentId
    { scripts with unresolvedReferences := scripts.unresolvedReferences ++ tools.templateReferences source }

def svelteRunes : List String :=
  ["$props", "$state", "$derived", "$effect", "$bindable", "$inspect", "$host", "$snippet"]

def foldSvelteBlock (componentId : String) (state : ExtractionResult) (block : ScriptBlock) : ExtractionResult :=
  foldScriptResult ⟨filePath, componentId, block.lineOffset, .svelte, !isModule tools block⟩
    (tools.extractSource block.content (scriptLanguage block)) state

def extractSvelte (source : String) : ExtractionResult :=
  let componentId := (componentNode filePath source .svelte).id
  let scripts := (extractScriptBlocks tools source).foldl (foldSvelteBlock tools filePath componentId)
    (sfcStart filePath .svelte source)
  { scripts with
    unresolvedReferences :=
      (scripts.unresolvedReferences ++ tools.templateReferences source).filter (·.referenceName ∉ svelteRunes) }

def Sfc.extract : Sfc → String → ExtractionResult
  | .vue => extractVue tools filePath
  | .svelte => extractSvelte tools filePath

end Extraction

end Codegraph.Embedded
