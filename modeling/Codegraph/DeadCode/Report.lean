import Codegraph.DeadCode.Ancestry
import Codegraph.DeadCode.Mentions
import Codegraph.Library.Rationing
import Codegraph.Library.Sieves

/- This file holds the dead code report: the rules in their order, the reading of the sources, and the folding of
members into the containers that are themselves dead. -/

namespace Codegraph.DeadCode
open Codegraph.Core Codegraph.Query InsertionMaps Sieves
open Codegraph.Watch.Scope (Text)

/-- A symbol that nothing reaches, and the members that it takes with it. -/
structure DeadCodeEntry where
  node : Node
  members : List Node
  lines : Int
  exported : Bool
  deriving DecidableEq

/-- Without a reader no candidate is checked against the text of the files. -/
structure DeadCodeQuery where
  kinds : Option (List NodeKind)
  includeExported : Bool
  includeTests : Bool
  includeGenerated : Bool
  limit : Nat
  readSource : Option (String → Option Text)

structure DeadCodeReport where
  entries : List DeadCodeEntry
  total : Nat
  candidates : Nat
  excluded : DeadCodeExclusions
  kinds : List NodeKind
  includeExported : Bool
  bounded : Bool
  corroborated : Bool

/-- What the graph says about the candidates of a report. -/
structure GraphFacts where
  decorated : List String
  containers : Containers
  overriding : List String
  hooks : List String
  unresolved : List String
  ambiguous : List String

def graphRule (facts : GraphFacts) (node : Node) : Option ExclusionRule :=
  if facts.decorated.contains node.id then some .decorated
  else if (facts.containers.lookup node.id).any fun container => isDeclarationContainerKind container.kind then
    some .declarations
  else if facts.overriding.contains node.id then some .overriding
  else if facts.hooks.contains node.id then some .hooks
  else if facts.unresolved.contains node.name then some .unresolvedName
  else if facts.ambiguous.contains node.name then some .ambiguousName
  else none

section Sources

/-- The files that were asked for, each with its text when it was read. -/
abbrev Sources := InsertionMap String (Option Text)

/-- A file is asked for once, and no more than the allowed number of files is read. -/
def Sources.ask (reader : String → Option Text) (sources : Sources) (file : String) : Sources :=
  Rationing.ask reader maxCorroborationFiles sources file

def Sources.textOf (sources : Sources) (file : String) : Option Text := (sources.get file).join

/-- How far the search for one name has come. -/
structure MentionSearch where
  sources : Sources
  ownReadable : Bool
  mentions : Nat

variable (unicode : Unicode) (reader : String → Option Text)

def searchScope (node : Node) : List String → MentionSearch → MentionSearch
  | [], search => search
  | file :: rest, search =>
    let sources := search.sources.ask reader file
    let source := sources.textOf file
    let ownReadable := if file = node.filePath then source.isSome else search.ownReadable
    match source with
    -- A file without a text is passed over, as if it held no mention.
    | none => searchScope node rest ⟨sources, ownReadable, search.mentions⟩
    | some text =>
      let mentions := search.mentions + mentionCount unicode text node.name.toList (2 - search.mentions)
      if mentions ≥ 2 then ⟨sources, ownReadable, mentions⟩
      else searchScope node rest ⟨sources, ownReadable, mentions⟩

/-- The declaring file and every file that reaches into it. -/
def scopeOf (index : DeadCodeIndex) (filePath : String) : List String :=
  filePath :: (index.dependentFilePaths filePath).insertionSort fun first second => (compare first second).isLE

/-- The declaration itself is one of the two mentions. -/
def sourceRule (index : DeadCodeIndex) (sources : Sources) (node : Node) : Sources × Option ExclusionRule :=
  let search := searchScope unicode reader node (scopeOf index node.filePath) ⟨sources, false, 0⟩
  (search.sources,
    if !search.ownReadable then some .unreadable
    else if search.mentions ≥ 2 then some .mentioned
    else none)

end Sources

section Folding

/-- The entries by the id of their node, in the order of the nodes, and the members that wait for their container. -/
structure MemberFold where
  order : List String
  entries : InsertionMap String DeadCodeEntry
  pending : List (Node × String)
  excluded : DeadCodeExclusions

def entryOf (node : Node) : DeadCodeEntry := ⟨node, [], max (node.endLine - node.startLine + 1) 1, node.isExported⟩

def MemberFold.enter (node : Node) (fold : MemberFold) : MemberFold :=
  { fold with order := fold.order ++ [node.id], entries := fold.entries.insert node.id (entryOf node) }

def MemberFold.place (containers : Containers) (keptIds : List String) (fold : MemberFold) (node : Node) : MemberFold :=
  match containers.lookup node.id with
  | some container =>
    if keptIds.contains container.id then
      { fold with pending := fold.pending ++ [(node, container.id)], excluded := fold.excluded.count .nested }
    else fold.enter node
  | none => fold.enter node

def DeadCodeEntry.adopt (member : Node) (entry : DeadCodeEntry) : DeadCodeEntry :=
  { entry with members := entry.members ++ [member] }

/-- A member whose container has no entry is left out. -/
def adoptPending (entries : InsertionMap String DeadCodeEntry) (member : Node × String) :
    InsertionMap String DeadCodeEntry :=
  match entries.get member.2 with
  | some entry => entries.insert member.2 (entry.adopt member.1)
  | none => entries

variable (unicode : Unicode)

def memberCmp (first second : Node) : Ordering :=
  (compare first.startLine second.startLine).then (localeCompare unicode first.name second.name)

def DeadCodeEntry.sortMembers (entry : DeadCodeEntry) : DeadCodeEntry :=
  { entry with members := entry.members.insertionSort fun first second => (memberCmp unicode first second).isLE }

/-- The biggest entry comes first. -/
def entryCmp (first second : DeadCodeEntry) : Ordering :=
  (compare second.lines first.lines).then <|
    (localeCompare unicode first.node.filePath second.node.filePath).then <|
      compare first.node.startLine second.node.startLine

def foldMembers (containers : Containers) (excluded : DeadCodeExclusions) (confirmed : List Node) : MemberFold :=
  confirmed.foldl (MemberFold.place containers (confirmed.map Node.id)) ⟨[], .empty, [], excluded⟩

def MemberFold.rank (fold : MemberFold) : List DeadCodeEntry :=
  let entries := fold.pending.foldl adoptPending fold.entries
  ((fold.order.filterMap entries.get).map (.sortMembers unicode)).insertionSort fun first second =>
    (entryCmp unicode first second).isLE

end Folding

variable (unicode : Unicode) (index : DeadCodeIndex) (query : DeadCodeQuery)

def rawCandidates : List (Node × Bool) :=
  index.unreferencedNodes (normalizeKinds query.kinds) (maxDeadCodeCandidates + 1)

def candidates : List (Node × Bool) := (rawCandidates index query).take maxDeadCodeCandidates

/-- The exported filter can only run on languages with export markers. -/
def exportLanguages : List String :=
  if query.includeExported then []
  else index.languagesWithExports ((candidates index query).map fun row => row.1.language.asStr)

def rowRule (row : Node × Bool) : Option ExclusionRule :=
  let node := row.1
  if !query.includeTests && isTestFile unicode node.filePath.toList then some .tests
  else if !query.includeGenerated && row.2 then some .generated
  else if !query.includeExported && (node.isExported || isHeaderFile unicode node.filePath) then some .exported
  else if !query.includeExported && !(exportLanguages index query).contains node.language.asStr then
    some .exportsUnknown
  else if node.isAbstract then some .declarations
  else if isImplicitEntryName unicode node.name then some .implicit
  else if isVendoredPath unicode node.filePath then some .vendored
  else if !query.includeTests && isTestScope unicode node.qualifiedName then some .testScope
  else if markupHostLanguages.contains node.language.asStr then some .markup
  else none

def rowPass : Sieve Unit DeadCodeExclusions (Node × Bool) :=
  screen (rowRule unicode index query) .count .none (candidates index query)

def surviving : List Node := (rowPass unicode index query).kept.map Prod.fst

def containers : Containers := containersOf index (surviving unicode index query)

def fileRule (node : Node) : Option ExclusionRule :=
  if (filesNothingReaches index (surviving unicode index query)).contains node.filePath then some .unreachableFile
    else none

def filePass : Sieve Unit DeadCodeExclusions Node :=
  screen (fileRule unicode index query) .count (rowPass unicode index query).tally
    (surviving unicode index query)

def graphFacts : GraphFacts :=
  let surviving := surviving unicode index query
  let reached := (filePass unicode index query).kept
  let containers := containers unicode index query
  let decorated := carriesDecorator index surviving
  let overriding := overrideCandidates index surviving containers
  let undecided := reached.filter fun node => !decorated.contains node.id && !overriding.contains node.id
  { decorated := decorated
    containers := containers
    overriding := overriding
    hooks := byNameHookCandidates index undecided containers ((candidates index query).map Prod.fst)
    unresolved := index.unresolvedNamesAmong (reached.map Node.name)
    ambiguous := index.ambiguousReferencedNames (reached.map Node.name) }

def graphPass : Sieve Unit DeadCodeExclusions Node :=
  screen (graphRule (graphFacts unicode index query)) .count (filePass unicode index query).tally
    (filePass unicode index query).kept

/-- Without a reader every candidate that is left counts as confirmed. -/
def sourcePass : Sieve Sources DeadCodeExclusions Node :=
  let kept := (graphPass unicode index query).kept
  let tally := (graphPass unicode index query).tally
  match query.readSource with
  | some reader => .run (sourceRule unicode reader index) .count kept ⟨.empty, tally, []⟩
  | none => ⟨.empty, tally, kept⟩

def memberFold : MemberFold :=
  foldMembers (containers unicode index query) (sourcePass unicode index query).tally
    (sourcePass unicode index query).kept

def rankedEntries : List DeadCodeEntry := (memberFold unicode index query).rank unicode

def buildDeadCodeReport : DeadCodeReport where
  entries := (rankedEntries unicode index query).take (max query.limit 1)
  total := (rankedEntries unicode index query).length
  candidates := (candidates index query).length
  excluded := (memberFold unicode index query).excluded
  kinds := normalizeKinds query.kinds
  includeExported := query.includeExported
  bounded := (rawCandidates index query).length > maxDeadCodeCandidates
  corroborated := query.readSource.isSome

end Codegraph.DeadCode
