import Codegraph.Core.Types
import Codegraph.Library.KeyedTables
import Mathlib.Data.List.Dedup

/- This file holds the two reference tables and every statement that moves their rows. -/

namespace Codegraph.Store
open Codegraph.Core KeyedTables

/-- The candidates of a reference are stored as one JSON text that reads back. -/
structure CandidateText where
  toText : List String → String
  fromText : String → Option (List String)
  readBack : ∀ candidates, fromText (toText candidates) = some candidates

/-- The columns of a stored reference, without its key. -/
structure RefColumns where
  fromNodeId : String
  referenceName : String
  referenceKind : String
  line : Int
  col : Int
  candidates : Option String
  filePath : String
  language : String
  referenceSubkind : Option String
  deriving DecidableEq

/-- A function reference is stored under its own kind. -/
def refColumns (json : CandidateText) (reference : UnresolvedRef) : RefColumns where
  fromNodeId := reference.fromNodeId
  referenceName := reference.referenceName
  referenceKind := if reference.isFunctionRef then "function_ref" else reference.referenceKind.asStr
  line := reference.line
  col := reference.col
  candidates := reference.candidates.map json.toText
  filePath := reference.filePath
  language := reference.language.asStr
  referenceSubkind := reference.referenceSubkind.map ReferenceSubkind.asStr

inductive RowError where
  | edgeKind (text : String)
  | language (text : String)
  | candidates (text : String)
  | referenceSubkind (text : String)
  deriving DecidableEq

def parseEdgeKind (text : String) : Except RowError EdgeKind :=
  match edgeKindNamed text with
  | some kind => .ok kind
  | none => .error (.edgeKind text)

def parseOptionalJsonArray (json : CandidateText) : Option String → Except RowError (Option (List String))
  | none => .ok none
  | some text =>
    match json.fromText text with
    | some candidates => .ok (some candidates)
    | none => .error (.candidates text)

def parseStoredLanguage (text : String) : Except RowError Language :=
  match parseLanguage text with
  | some language => .ok language
  | none => .error (.language text)

def parseReferenceSubkind : Option String → Except RowError (Option ReferenceSubkind)
  | none => .ok none
  | some text =>
    match subkindNamed text with
    | some subkind => .ok (some subkind)
    | none => .error (.referenceSubkind text)

def rowToUnresolvedRef (json : CandidateText) (row : Keyed RefColumns) : Except RowError UnresolvedRef := do
  let isFunctionRef := decide (row.value.referenceKind = "function_ref")
  let referenceKind ← if isFunctionRef then pure .references else parseEdgeKind row.value.referenceKind
  let candidates ← parseOptionalJsonArray json row.value.candidates
  let language ← parseStoredLanguage row.value.language
  let referenceSubkind ← parseReferenceSubkind row.value.referenceSubkind
  return {
    id := some row.id
    fromNodeId := row.value.fromNodeId
    referenceName := row.value.referenceName
    referenceKind
    line := row.value.line
    col := row.value.col
    candidates
    filePath := row.value.filePath
    language
    isFunctionRef
    referenceSubkind }

structure ReferenceSite where
  fromNodeId : String
  line : Int
  col : Int
  deriving DecidableEq

def RefColumns.site (columns : RefColumns) : ReferenceSite := ⟨columns.fromNodeId, columns.line, columns.col⟩

/-- A node keeps the file that its declaration stands in. -/
structure StoredNode where
  id : String
  filePath : String
  deriving DecidableEq

/-- The tables hold the references that await resolution and those that left it.
The field `extracted` keeps each file's references since its rows were last cleared, and no statement reads it. -/
structure ReferenceStore where
  tables : Tables RefColumns
  nodes : List StoredNode
  extracted : String → Multiset RefColumns

def ReferenceStore.empty : ReferenceStore := ⟨.empty, [], fun _ => 0⟩

/-- An upsert replaces the node of the same id. -/
def upsertNode (nodes : List StoredNode) (node : StoredNode) : List StoredNode :=
  nodes.filter (fun old => old.id ≠ node.id) ++ [node]

def upsertNodes (nodes : List StoredNode) (state : ReferenceStore) : ReferenceStore :=
  { state with nodes := nodes.foldl upsertNode state.nodes }

def ReferenceStore.hasNode (state : ReferenceStore) (id : String) : Bool :=
  state.nodes.any (fun node => node.id = id)

/-- A reference whose source node is absent is skipped. -/
def insertUnresolvedRefs (json : CandidateText) (references : List UnresolvedRef) (state : ReferenceStore) :
    ReferenceStore :=
  let kept := references.filter (fun reference => state.hasNode reference.fromNodeId)
  { state with tables := state.tables.addAll (kept.map (refColumns json)) }

def sqliteParamChunkSize : Nat := 500

/-- The ids move a chunk at a time, with one statement each way. -/
def deleteResolvedUnresolvedRefs (ids : List Int) (state : ReferenceStore) : ReferenceStore :=
  { state with tables := (ids.toChunks sqliteParamChunkSize).foldl .settle state.tables }

/-- The rows are read in the order of their ids, and the references forget them. -/
def readRows (json : CandidateText) (rows : List (Keyed RefColumns)) : Except RowError (List UnresolvedRef) :=
  (rows.mergeSort (fun first second => first.id ≤ second.id)).mapM (fun row =>
    (rowToUnresolvedRef json row).map (fun reference => { reference with id := none }))

def storedRefsOfFile (json : CandidateText) (filePath : String) (state : ReferenceStore) :
    Except RowError (List UnresolvedRef) :=
  readRows json (state.tables.rows.filter (fun row => row.value.filePath = filePath))

/-- Each site of the set is read once. -/
def storedRefsAtSites (json : CandidateText) (sites : List ReferenceSite) (state : ReferenceStore) :
    Except RowError (List UnresolvedRef) :=
  readRows json (sites.dedup.flatMap (fun site => state.tables.rows.filter (fun row => row.value.site = site)))

inductive ResolutionReplacement where
  | file (filePath : String) (references : List UnresolvedRef)
  | sites (sites : List ReferenceSite) (references : List UnresolvedRef)
  deriving DecidableEq

def ReferenceStore.eraseRefs (matching : RefColumns → Bool) (state : ReferenceStore) : ReferenceStore :=
  { state with tables := state.tables.erase matching }

def replaceFileResolutionIn (json : CandidateText) (filePath : String) (references : List UnresolvedRef)
    (state : ReferenceStore) : ReferenceStore :=
  insertUnresolvedRefs json references (state.eraseRefs (fun columns => columns.filePath = filePath))

/-- The sites are cleared one by one, and an empty set changes nothing. -/
def replaceSiteResolutionIn (json : CandidateText) (sites : List ReferenceSite)
    (references : List UnresolvedRef) (state : ReferenceStore) : ReferenceStore :=
  if sites.dedup = [] then state
  else
    insertUnresolvedRefs json references
      (sites.dedup.foldl (fun reached site => reached.eraseRefs (fun columns => columns.site = site)) state)

def replaceResolution (json : CandidateText) (state : ReferenceStore) :
    ResolutionReplacement → ReferenceStore
  | .file filePath references => replaceFileResolutionIn json filePath references state
  | .sites sites references => replaceSiteResolutionIn json sites references state

def replaceResolutionStates (json : CandidateText) (replacements : List ResolutionReplacement)
    (state : ReferenceStore) : ReferenceStore :=
  replacements.foldl (replaceResolution json) state

def deleteUnresolvedRefsByFile (filePath : String) (state : ReferenceStore) : ReferenceStore :=
  { state.eraseRefs (fun columns => columns.filePath = filePath) with
    extracted := Function.update state.extracted filePath 0 }

/-- The nodes of a file go, and the references from them go in cascade. -/
def deleteFileRecord (filePath : String) (state : ReferenceStore) : ReferenceStore :=
  let gone := state.nodes.filter (fun node => node.filePath = filePath)
  { state.eraseRefs (fun columns => gone.any (fun node => node.id = columns.fromNodeId)) with
    nodes := state.nodes.filter (fun node => node.filePath ≠ filePath) }

end Codegraph.Store
