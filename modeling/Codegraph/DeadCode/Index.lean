import Codegraph.DeadCode.Rules
import Codegraph.Graph.Tables
import Mathlib.Data.List.Sort

/- This file holds the tables that the dead code report reads and the queries that it makes of them. -/

namespace Codegraph.DeadCode
open Codegraph.Core Codegraph.Graph
open Codegraph.Query (rsplitOnce)
open Codegraph.Watch.Scope (Text)

/-- The tables of nodes and edges, the references without a target, and the paths of the generated files. -/
structure DeadCodeIndex where
  tables : GraphStore
  unresolvedRefs : List UnresolvedRef
  generatedFiles : List String

namespace DeadCodeIndex

variable (index : DeadCodeIndex)

/-- Something other than what holds it points at a node. -/
def isReferenced (id : String) : Bool := index.tables.edges.any fun edge => edge.target = id && edge.kind ≠ .contains

def isUnreferenced (node : Node) : Bool :=
  !index.tables.edges.any fun edge => edge.target = node.id && edge.kind ≠ .contains && edge.source ≠ node.id

def rowCmp (first second : Node) : Ordering :=
  (compare first.filePath second.filePath).then <|
    (compare first.startLine second.startLine).then <|
      (compare first.name second.name).then <| compare first.id second.id

/-- Each row has the flag of its file. -/
def unreferencedNodes (kinds : List NodeKind) (limit : Nat) : List (Node × Bool) :=
  if kinds.isEmpty then []
  else
    (((index.tables.nodes.filter fun node => kinds.contains node.kind && index.isUnreferenced node).insertionSort
      fun first second => (rowCmp first second).isLE).take limit).map fun node =>
        (node, index.generatedFiles.contains node.filePath)

def outgoingEdgesFrom (ids : List String) (kinds : List EdgeKind) : List Edge :=
  ids.eraseDups.flatMap fun id => index.tables.outgoingEdges id kinds

def incomingEdgesTo (ids : List String) (kinds : List EdgeKind) : List Edge :=
  ids.eraseDups.flatMap fun id => index.tables.incomingEdges id kinds

/-- The languages with a symbol that is marked as exported. -/
def languagesWithExports (languages : List String) : List String :=
  languages.filter fun language =>
    language ≠ "" && index.tables.nodes.any fun node => node.language.asStr = language && node.isExported

/-- The last segment of a reference name, without the arity that may follow it. -/
def referenceNameTail (referenceName : String) : String :=
  let base : Text := match rsplitOnce referenceName.toList '/' with
    | some (head, arity) =>
      if !head.isEmpty && (1 ≤ arity.length && arity.length ≤ 3) && arity.all Char.isDigit then head
      else referenceName.toList
    | none => referenceName.toList
  String.ofList (base.rtakeWhile fun c => c ≠ '.' && c ≠ ':')

/-- A name may be what some reference without a target means. -/
def unresolvedNamesAmong (names : List String) : List String :=
  (index.unresolvedRefs.flatMap fun reference =>
    [reference.referenceName, referenceNameTail reference.referenceName]).filter
    fun name => name ≠ "" && names.contains name

/-- Several symbols carry the name, and something points at one of them. -/
def ambiguousReferencedNames (names : List String) : List String :=
  names.filter fun name =>
    let carriers := index.tables.nodes.filter fun node => node.name = name
    name ≠ "" && decide (carriers.length > 1) && carriers.any fun node => index.isReferenced node.id

/-- The references without a target whose kind is one of the wanted ones. A reference to a function has no kind. -/
def unresolvedOfKinds (kinds : List EdgeKind) : List UnresolvedRef :=
  index.unresolvedRefs.filter fun reference => !reference.isFunctionRef && kinds.contains reference.referenceKind

/-- The names that a node refers to without a target, each once. An id without such a name is absent. -/
def unresolvedReferenceNamesFrom (ids : List String) (kinds : List EdgeKind) (id : String) : List String :=
  if ids.contains id then
    (((index.unresolvedOfKinds kinds).filter fun reference => reference.fromNodeId = id).map
      UnresolvedRef.referenceName).eraseDups
  else []

/-- The nodes that refer to a name without a target, each once. -/
def unresolvedReferenceSourcesNamed (names : List String) (kinds : List EdgeKind) (name : String) : List String :=
  if names.contains name && name ≠ "" then
    (((index.unresolvedOfKinds kinds).filter fun reference => reference.referenceName = name).map
      UnresolvedRef.fromNodeId).eraseDups
  else []

def unresolvedSupertypeSourcesAmong (ids : List String) : List String :=
  ids.filter fun id => !(index.unresolvedReferenceNamesFrom ids [.extends_, .implements] id).isEmpty

/-- The files of the symbols that reach into a file, each once and the file itself never. -/
def dependentFilePaths (filePath : String) : List String :=
  (index.tables.edges.filterMap fun edge =>
    match index.tables.nodeById edge.source, index.tables.nodeById edge.target with
    | some source, some target =>
      if target.filePath = filePath && edge.kind ≠ .contains && source.filePath ≠ filePath then some source.filePath
      else none
    | _, _ => none).eraseDups

/-- A file that nothing depends on has no row. -/
def fileDependentCounts (paths : List String) (filePath : String) : Nat :=
  if paths.contains filePath then (index.dependentFilePaths filePath).length else 0

variable {index} {filePath : String} {node : Node}

theorem not_mem_dependentFilePaths : filePath ∉ index.dependentFilePaths filePath := by
  intro listed
  rw [dependentFilePaths, List.mem_eraseDups, List.mem_filterMap] at listed
  obtain ⟨edge, _, chosen⟩ := listed
  split at chosen
  · split at chosen
    · rename_i source target _ _ other
      simp only [Option.some.injEq] at chosen
      simp [chosen] at other
    · cases chosen
  · cases chosen

theorem mem_of_unreferenced {kinds : List NodeKind} {limit : Nat} {row : Node × Bool}
    (listed : row ∈ index.unreferencedNodes kinds limit) : row.1 ∈ index.tables.nodes := by
  rw [unreferencedNodes] at listed
  split at listed
  · cases listed
  · obtain ⟨node, chosen, rfl⟩ := List.mem_map.mp listed
    exact List.mem_of_mem_filter ((List.mem_insertionSort _).mp (List.mem_of_mem_take chosen))

/-- No candidate is listed twice. -/
theorem unreferencedNodes_nodup (kinds : List NodeKind) (limit : Nat) :
    ((index.unreferencedNodes kinds limit).map fun row => row.1.id).Nodup := by
  rw [unreferencedNodes]
  split
  · exact List.nodup_nil
  · rw [List.map_map]
    have stored : ((index.tables.nodes.filter fun node => kinds.contains node.kind && index.isUnreferenced node).map
        Node.id).Nodup := index.tables.nodeKey.sublist (List.filter_sublist.map _)
    have sorted :=
      ((List.perm_insertionSort (fun first second => (rowCmp first second).isLE) _).map Node.id).nodup_iff.mpr stored
    exact sorted.sublist ((List.take_sublist _ _).map _)

end DeadCodeIndex

end Codegraph.DeadCode
