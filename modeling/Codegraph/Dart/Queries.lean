import Codegraph.Dart.Exports

/- This file models the questions that resolution asks about Dart libraries, and the tables that their answers leave
behind. -/

namespace Codegraph.Dart
open List

open Watch.Scope (Text)

/-- What a file's imports and its library's own files make visible. -/
structure FileScope where
  own : List File
  importers : List File

/-- What an instance keeps between its queries: complete namespaces, and by file, prefix and declaring file the
filters of the imports. -/
structure Memos where
  exports : ExportMemo
  visible : File × Text × File → Option (List NameFilter)

def Memos.fresh : Memos := ⟨fun _ => none, fun _ => none⟩

def NamespaceDirective.importPrefix (directive : NamespaceDirective) : Text := directive.asPrefix.getD []

namespace Project

variable (project : Project)

/-- The file, and for a part each file up to its library. Their parents are recorded when the library is. -/
def importersFrom (library : File) : Nat → File → List File
  | 0, _ => []
  | room + 1, file =>
    file :: if file = library then [] else match project.parent file with
      | some parent => importersFrom library room parent
      | none => []

/-- What a file can see, unless its package or its library is unknown. -/
def scopeOf (file : File) : Option FileScope :=
  if project.inPackage file then (project.libraryOf file).map fun library =>
    ⟨file :: project.membersOf library, project.importersFrom library 32 file⟩
  else none

def importsOf (scope : FileScope) : List (File × NamespaceDirective) :=
  scope.importers.flatMap fun importer => match project.directivesOf importer with
    | none => []
    | some directives => directives.imports.map (importer, ·)

/-- The libraries that the imports of a prefix name, each with the filter of the import. -/
def importedLibraries (scope : FileScope) (written : Text) : Option (List (NameFilter × File)) :=
  let named := (project.importsOf scope).filter fun directive => directive.2.importPrefix = written
  if named.isEmpty then none
  else some (named.flatMap fun (importer, directive) => directive.uris.flatMap fun uri =>
    (project.resolveDartUri importer uri).filterMap fun target => (project.libraryOf target).map (directive.filter, ·))

/-- The prefixes that the imports write, in order. -/
def importPrefixes (scope : FileScope) : List Text :=
  (((project.importsOf scope).map (·.2.importPrefix)).dedup.insertionSort (· ≤ ·)).filter (· ≠ [])

def importStep (declFile : File) (state : List NameFilter × ExportMemo) (imported : NameFilter × File) :
    List NameFilter × ExportMemo :=
  let (walk, exports) := project.exportsOf exportDepthLimit state.2 [] imported.2
  (pushThrough imported.1 (walk.names declFile) state.1, exports)

/-- The filters through which the imports of a prefix bring in the names of a file. -/
def importedFilters (memos : Memos) (file : File) (scope : FileScope) (written : Text) (declFile : File) :
    Option (List NameFilter) × Memos :=
  match project.importedLibraries scope written with
  | none => (if written = [] then some [] else none, memos)
  | some libraries => match memos.visible (file, written, declFile) with
    | some hit => (some hit, memos)
    | none =>
      let (through, exports) := libraries.foldl (project.importStep declFile) ([], memos.exports)
      (some through, ⟨exports, Function.update memos.visible (file, written, declFile) (some through)⟩)

/-- Whether the name of a declaration is what a file writes, bare or behind a prefix. -/
def sees (memos : Memos) (source : File) (written : Option Text) (decl : File) (name : Text) : Bool × Memos :=
  if written.isNone && source = decl then (true, memos)
  else match project.scopeOf source with
    | none => (true, memos)
    | some scope => match written with
      | none =>
        if decl ∈ scope.own then (true, memos)
        else if name.head? = some '_' then (false, memos)
        else
          let (filters, memos) := project.importedFilters memos source scope [] decl
          (filters.any fun filters => filters.any (·.lets name), memos)
      | some written => match project.importedFilters memos source scope written decl with
        | (none, memos) => (true, memos)
        | (some filters, memos) => (name.head? ≠ some '_' && filters.any (·.lets name), memos)

/-- How a file can name a declaration: bare, and then behind each prefix of its imports. -/
def reachOf (memos : Memos) (source decl : File) (name : Text) : List (Text × Bool) × Memos :=
  let (bare, memos) := project.sees memos source none decl name
  match project.scopeOf source with
  | none => ([([], bare)], memos)
  | some scope =>
    let memos := (project.importedFilters memos source scope [] decl).2
    (project.importPrefixes scope).foldl (fun state written =>
      let (seen, memos) := project.sees state.2 source (some written) decl name
      (state.1 ++ [(written, seen)], memos)) ([([], bare)], memos)

/-- The exported files with their filters, in which order does not count. -/
def namespaceOf (memos : Memos) (library : File) : (File → Finset NameFilter) × Memos :=
  let (walk, exports) := project.exportsOf exportDepthLimit memos.exports [] library
  (fun file => (walk.names file).toFinset, { memos with exports := exports })

end Project

inductive Query where
  | namespaceOf (library : File)
  | sees (source : File) (written : Option Text) (decl : File) (name : Text)
  | reachOf (source decl : File) (name : Text)

inductive Answer where
  | names (exported : File → Finset NameFilter)
  | seen (visible : Bool)
  | reach (prefixes : List (Text × Bool))

namespace Project

variable (project : Project)

def ask (memos : Memos) : Query → Answer × Memos
  | .namespaceOf library => (project.namespaceOf memos library).map .names id
  | .sees source written decl name => (project.sees memos source written decl name).map .seen id
  | .reachOf source decl name => (project.reachOf memos source decl name).map .reach id

/-- What a fresh instance keeps after a sequence of queries. -/
def after (queries : List Query) : Memos := queries.foldl (fun memos query => (project.ask memos query).2) .fresh

end Project

section Tables

variable {project : Project} {memos : Memos} {source decl : File} {scope : FileScope} {name : Text}

/-- What the reads of imports and of namespaces keep. -/
structure Keeps (project : Project) (holds : Memos → Prop) : Prop where
  imports : ∀ memos source scope written decl, project.scopeOf source = some scope → holds memos →
    holds (project.importedFilters memos source scope written decl).2
  names : ∀ memos library, holds memos → holds (project.namespaceOf memos library).2

variable {holds : Memos → Prop}

theorem Keeps.sees (keeps : Keeps project holds) (held : holds memos) (written : Option Text) :
    holds (project.sees memos source written decl name).2 := by
  unfold Project.sees
  split
  · exact held
  · split
    · exact held
    · rename_i scope known
      cases written with
      | none =>
        dsimp only
        split
        · exact held
        · split
          · exact held
          · exact keeps.imports memos source scope [] decl known held
      | some written =>
        have kept := keeps.imports memos source scope written decl known held
        dsimp only
        split
        · rename_i found
          rwa [found] at kept
        · rename_i found
          rwa [found] at kept

theorem Keeps.ask (keeps : Keeps project holds) (held : holds memos) (query : Query) :
    holds (project.ask memos query).2 := by
  cases query with
  | namespaceOf library => exact keeps.names memos library held
  | sees source written decl name => exact keeps.sees held written
  | reachOf source decl name =>
    show holds (project.reachOf memos source decl name).2
    have bare := @Keeps.sees _ _ source decl name _ keeps held none
    unfold Project.reachOf
    dsimp only
    split
    · exact bare
    · rename_i scope known
      exact foldlRecOn _ _ (motive := fun state : List (Text × Bool) × Memos => holds state.2)
        (keeps.imports _ source scope [] decl known bare) fun state kept written _ => keeps.sees kept (some written)

theorem Keeps.after (keeps : Keeps project holds) (begun : holds .fresh) (queries : List Query) :
    holds (project.after queries) :=
  foldlRecOn _ _ begun fun _ held query _ => keeps.ask held query

/-- The queries change the namespaces by walks of libraries alone. -/
theorem keeps_exports {kept : ExportMemo → Prop}
    (walks : ∀ memo library, kept memo → kept (project.exportsOf exportDepthLimit memo [] library).2) :
    Keeps project fun memos => kept memos.exports := by
  refine ⟨fun memos source scope written decl _ held => ?_, fun memos library held => walks memos.exports library held⟩
  unfold Project.importedFilters
  split
  · exact held
  · split
    · exact held
    · exact foldlRecOn _ _ (motive := fun state : List NameFilter × ExportMemo => kept state.2) held
        fun state held imported _ => walks state.2 imported.2 held

theorem keeps_complete {p : NameFilter → Prop} (composes : Composes p) :
    Keeps project fun memos => Complete project p memos.exports :=
  keeps_exports fun _ _ kept => (covers_exportsOf composes [] kept).1

/-- What an instance keeps is complete after any queries. -/
theorem complete_after {p : NameFilter → Prop} (composes : Composes p) (queries : List Query) :
    Complete project p (project.after queries).exports :=
  (keeps_complete composes).after (fun _ _ found => by cases found) queries

end Tables

section Chains

variable {project : Project} {library file : File} {path : List File}

theorem not_returns_nil {low : WithTop Nat} : ¬ Returns [] low library := fun ⟨_, found, _⟩ => by cases found

/-- A walk from the top that is not cut is complete. -/
theorem complete_exportsOf {p : NameFilter → Prop} (composes : Composes p) {memo : ExportMemo}
    (kept : Complete project p memo) (shallow : Shallow project library) :
    (∃ filter ∈ (project.exportsOf exportDepthLimit memo [] library).1.names file, p filter) ↔
      ∃ steps, Chain project p file steps library := by
  have covers := (@covers_exportsOf _ _ library composes exportDepthLimit _ [] kept).2
  have uncut : (project.exportsOf exportDepthLimit memo [] library).1.cut = false :=
    @uncut_exportsOf _ _ _ shallow _ _ [] ⟨nodup_singleton _, isChain_singleton _⟩ rfl rfl
  refine ⟨covers.sound file, fun ⟨steps, chain⟩ => ?_⟩
  exact (covers.complete uncut file steps chain).resolve_right fun ⟨_, returns, _⟩ => not_returns_nil returns

/-- After any queries, the filters of an exported file let through the names that some chain of exports lets through. -/
theorem exports_let_through (project : Project) (simple : ∀ path, Simple project path → path.length < exportDepthLimit)
    (earlier : List Query) (library file : File) (name : Text) :
    (∃ filter ∈ (project.exportsOf exportDepthLimit (project.after earlier).exports [] library).1.names file,
      filter.lets name) ↔
      ∃ steps, Chain project (fun filter => filter.lets name) file steps library :=
  complete_exportsOf (composes_lets name) (complete_after (composes_lets name) earlier) fun path chain _ =>
    (simple path chain).le

/-- All but the first library of a chain are indexed files. -/
theorem exported_indexed {exported : File} (exports : Exports project library exported) :
    exported ∈ project.indexed := by
  obtain ⟨filter, edge⟩ := exports
  obtain ⟨file, -, listed⟩ := mem_flatMap.mp edge
  split at listed
  · cases listed
  · obtain ⟨directive, -, listed⟩ := mem_flatMap.mp listed
    obtain ⟨uri, -, listed⟩ := mem_flatMap.mp listed
    obtain ⟨target, -, found⟩ := mem_filterMap.mp listed
    obtain ⟨other, belongs, same⟩ := Option.map_eq_some_iff.mp found
    obtain ⟨-, rfl⟩ := Prod.mk.inj same
    obtain ⟨-, isLibrary⟩ := libraryOf_eq_some.mp belongs
    refine project.known other ?_
    unfold Project.isLibrary at isLibrary
    split at isLibrary
    · rename_i directives read
      rw [read]
      rfl
    · cases isLibrary

theorem Simple.length_le (simple : Simple project path) : path.length ≤ project.indexed.length + 1 := by
  cases path with
  | nil => exact Nat.zero_le _
  | cons first rest =>
    have inside : rest ⊆ project.indexed := by
      intro file member
      obtain ⟨before, behind, rfl⟩ := append_of_mem member
      obtain ⟨between, last, shape⟩ := eq_nil_or_concat (first :: before) |>.resolve_left (cons_ne_nil _ _)
      have chained := simple.2
      rw [← cons_append, shape, concat_eq_append, append_assoc] at chained
      have step := (isChain_append.mp (isChain_append.mp chained).2.1).2.2
      exact exported_indexed (step last rfl file rfl)
    have bound := (subperm_of_subset (nodup_cons.mp simple.1).2 inside).length_le
    rw [length_cons]
    omega

/-- Two libraries export each other, and one of them exports a third. All lie next to each other in one package. -/
def mutualExports (mutual_ third : NameFilter) : Project :=
  { indexed := ["a.dart".toList, "b.dart".toList, "d.dart".toList]
    dartFiles := ["a.dart".toList, "b.dart".toList, "d.dart".toList]
    directivesOf := fun file =>
      if file = "a.dart".toList then
        some ⟨none, none, [], [], [⟨["b.dart".toList], none, mutual_⟩]⟩
      else if file = "b.dart".toList then
        some ⟨none, none, [], [], [⟨["a.dart".toList], none, .every⟩, ⟨["d.dart".toList], none, third⟩]⟩
      else if file = "d.dart".toList then some ⟨none, none, [], [], []⟩
      else none
    resolveDartUri := fun _ uri => [uri]
    inPackage := fun _ => true
    known := by
      intro file read
      split at read
      · simp [*]
      · split at read
        · simp [*]
        · split at read
          · simp [*]
          · cases read }

/-- Two libraries that export each other. -/
theorem exports_let_through_mutual :
    let project := mutualExports (.new none (some {"X".toList})) (.new (some {"X".toList, "Y".toList}) none)
    (∃ filter ∈ (project.exportsOf exportDepthLimit (project.after [.namespaceOf "a.dart".toList]).exports []
        "b.dart".toList).1.names "d.dart".toList, filter.lets "X".toList) ↔
      ∃ steps, Chain project (fun filter => filter.lets "X".toList) "d.dart".toList steps "b.dart".toList :=
  exports_let_through _ (fun _ simple => lt_of_le_of_lt simple.length_le (by decide)) [.namespaceOf "a.dart".toList]
    "b.dart".toList "d.dart".toList "X".toList

end Chains

end Codegraph.Dart
