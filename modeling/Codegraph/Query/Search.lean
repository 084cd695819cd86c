import Codegraph.Query.EditDistance
import Codegraph.Query.Parser
import Codegraph.Query.Segments

/- This file holds the search for nodes: the sources of its rows in their order, the ranking, and the filters. -/

namespace Codegraph.Query
open Codegraph.Core
open Codegraph.Watch.Scope (Text)

def infixCandidateCap : Int64 := 50

def infixSeedCap : Nat := 3

structure SearchResult (S : Type) where
  node : Node
  score : S

def SearchResult.id {S : Type} (result : SearchResult S) : String := result.node.id

/-- A node is of a listed kind and in a listed language. An empty list allows everything. -/
def Allowed (kinds : List NodeKind) (languages : List Language) (node : Node) : Prop :=
  (kinds ≠ [] → node.kind ∈ kinds) ∧ (languages ≠ [] → node.language ∈ languages)

/-- The rows of a query are allowed, and no id is listed twice. -/
structure Filtered {S : Type} (kinds : List NodeKind) (languages : List Language) (rows : List (SearchResult S)) :
    Prop where
  allowed : ∀ row ∈ rows, Allowed kinds languages row.node
  distinct : (rows.map SearchResult.id).Nodup

/-- The queries that a search makes of a store. Those with filters keep to them. -/
structure SearchStore (S : Type) where
  searchNodesFtsFiltered : Text → List NodeKind → List Language → Int64 → Int64 → List (SearchResult S)
  searchAllByFilters : List NodeKind → List Language → Int64 → List (SearchResult S)
  searchNodesLike : Text → List NodeKind → List Language → Int64 → Int64 → List (SearchResult S)
  nodesByExactNameNocase : Text → List NodeKind → List Language → List Node
  nodesByExactNameFiltered : String → List NodeKind → List Language → List Node
  nodesByLowerName : Text → List Node
  seedableNodesByNameInfix : Text → Int64 → List Node
  allNodeNames : List String
  ftsFiltered : ∀ text kinds languages limit offset,
    Filtered kinds languages (searchNodesFtsFiltered text kinds languages limit offset)
  allFiltered : ∀ kinds languages limit, Filtered kinds languages (searchAllByFilters kinds languages limit)
  likeFiltered : ∀ text kinds languages limit offset,
    Filtered kinds languages (searchNodesLike text kinds languages limit offset)
  nocaseAllowed : ∀ name kinds languages, ∀ node ∈ nodesByExactNameNocase name kinds languages,
    Allowed kinds languages node
  exactAllowed : ∀ name kinds languages, ∀ node ∈ nodesByExactNameFiltered name kinds languages,
    Allowed kinds languages node

/-- What a search asks of its scores. The bonus of a node joins its kind, its path and its name, and the order puts the
better score first. As long as every score is a number, it is an order. -/
structure Scoring (S : Type) where
  infixSeedScore : S
  namedSeedScore : S
  fuzzyScore : Nat → S
  maxScore : List S → S
  add : S → S → S
  bonus : Node → Text → List String → Bool → S
  betterCmp : S → S → Ordering
  ordered : Std.TransCmp betterCmp

structure SearchOptions where
  kinds : List NodeKind
  languages : List Language
  limit : Option Int64
  offset : Option Int64
  seedNames : List Text
  deprioritize : Option (String → Bool)

/-- A negative number becomes a very large one. -/
def asUsize (value : Int64) : Nat := value.toUInt64.toNat

def mergeUnique {α : Type} [DecidableEq α] (base extra : List α) : List α :=
  (base ++ extra).foldl (fun out item => if out.contains item then out else out ++ [item]) []

section Rows

variable {S : Type}

/-- A row joins the results unless its node is there already. -/
def offer (score : S) (results : List (SearchResult S)) (node : Node) : List (SearchResult S) :=
  if results.any fun result => result.node.id = node.id then results else results ++ [⟨node, score⟩]

variable (unicode : Unicode) (scoring : Scoring S) (store : SearchStore S)

/-- A full list stays full, which is the same as leaving both loops. -/
def offerBelow (limit : Nat) (score : S) (results : List (SearchResult S)) (node : Node) : List (SearchResult S) :=
  if results.length ≥ limit then results else offer score results node

def searchNodesFuzzy (text : Text) (kinds : List NodeKind) (languages : List Language) (limit : Int64) :
    List (SearchResult S) :=
  let lowered := unicode.toLowercase text
  let maxDist := if lowered.length ≤ 4 then 1 else 2
  let candidates := store.allNodeNames.filterMap fun name =>
    let dist := boundedEditDistance (String.ofList (unicode.toLowercase name.toList)) (String.ofList lowered) maxDist
    if dist ≤ maxDist then some (name, dist) else none
  let capped := (candidates.insertionSort fun first second => first.2 ≤ second.2).take (asUsize (max (limit * 2) 50))
  capped.foldl (fun results candidate =>
    (store.nodesByExactNameFiltered candidate.1 kinds languages).foldl
      (offerBelow (asUsize limit) (scoring.fuzzyScore candidate.2)) results) []

/-- The rows of the first query that finds any. -/
def baseRows (text : Text) (kinds : List NodeKind) (languages : List Language) (limit offset : Int64) :
    List (SearchResult S) :=
  let results :=
    if !text.isEmpty then store.searchNodesFtsFiltered text kinds languages limit offset
    else store.searchAllByFilters kinds languages (limit * 5)
  let results :=
    if results.isEmpty && text.length ≥ 2 then store.searchNodesLike text kinds languages limit offset else results
  if results.isEmpty && text.length ≥ 3 then searchNodesFuzzy unicode scoring store text kinds languages limit
    else results

/-- The nodes named by a word of the query join with the best score so far. -/
def seedQueryTerms (query : Text) (kinds : List NodeKind) (languages : List Language)
    (results : List (SearchResult S)) :
    List (SearchResult S) :=
  if !results.isEmpty && !query.isEmpty then
    let maxFtsScore := scoring.maxScore (results.map SearchResult.score)
    ((splitWhitespace unicode query).filter fun term => term.length ≥ 2).foldl (fun results term =>
      (store.nodesByExactNameNocase term kinds languages).foldl (offer maxFtsScore) results) results
  else results

def seedNamedNodes (seedNames : List Text) (kinds : List NodeKind) (languages : List Language)
    (results : List (SearchResult S)) : List (SearchResult S) :=
  seedNames.foldl (fun results name =>
    (store.nodesByExactNameNocase name kinds languages).foldl (offer scoring.namedSeedScore) results) results

/-- The candidates for one word of the query, until enough of them are seeded. -/
def seedCandidates (kinds : List NodeKind) (token : Text) :
    List Node → Nat → List (SearchResult S) → List (SearchResult S)
  | [], _, results => results
  | node :: rest, seeded, results =>
    if seeded ≥ infixSeedCap then results
    else if !kinds.isEmpty && !kinds.contains node.kind then seedCandidates kinds token rest seeded results
    else if !nameSegmentsContainRun unicode node.name.toList token then seedCandidates kinds token rest seeded results
    else if results.any fun result => result.node.id = node.id then seedCandidates kinds token rest seeded results
    else seedCandidates kinds token rest (seeded + 1) (results ++ [⟨node, scoring.infixSeedScore⟩])

/-- A word that names no symbol brings in the definers whose names hold its segments. -/
def seedToken (kinds : List NodeKind) (results : List (SearchResult S)) (token : Text) : List (SearchResult S) :=
  if !isMultiSegmentIdentifier unicode token then results
  else if results.any fun result => result.node.name.toList = token then results
  else if !(store.nodesByLowerName (unicode.toLowercase token)).isEmpty then results
  else
    let needle := unicode.toLowercase (token.filter unicode.isAlphanumeric)
    if needle.isEmpty then results
    else seedCandidates unicode scoring kinds token (store.seedableNodesByNameInfix needle infixCandidateCap) 0 results

/-- The kinds are asked about here, and the languages are not. -/
def seedMultiSegmentDefiners (query : Text) (kinds : List NodeKind) (results : List (SearchResult S)) :
    List (SearchResult S) :=
  (splitWhitespace unicode query).foldl (seedToken unicode scoring store kinds) results

end Rows

section Ranking

variable {S : Type} (unicode : Unicode) (scoring : Scoring S)

def isDeprioritized (deprioritize : Option (String → Bool)) (node : Node) : Bool :=
  deprioritize.any fun matches_ => matches_ node.filePath

def SearchResult.rescore (scoringQuery : Text) (projectNameTokens : List String) (deprioritize : Option (String → Bool))
    (result : SearchResult S) : SearchResult S :=
  let bonus := scoring.bonus result.node scoringQuery projectNameTokens (isDeprioritized deprioritize result.node)
  { result with score := scoring.add result.score bonus }

def sortByScoreDesc (results : List (SearchResult S)) : List (SearchResult S) :=
  results.insertionSort fun first second => (scoring.betterCmp first.score second.score).isLE

/-- An exact name comes first, and the order of the scores stays among equals. -/
def sortByExactNameThenScoreDesc (query : Text) (deprioritize : Option (String → Bool))
    (results : List (SearchResult S)) :
    List (SearchResult S) :=
  let isExact (result : SearchResult S) : Bool :=
    isExactNameMatch unicode result.node.name.toList query && !isDeprioritized deprioritize result.node
  (sortByScoreDesc scoring results).insertionSort fun first second => (compare (isExact second) (isExact first)).isLE

/-- Some filter is part of a text when the case is ignored. -/
def matchesSome (filters : List Text) (text : String) : Bool :=
  filters.any fun filter => Text.contains (unicode.toLowercase text.toList) (unicode.toLowercase filter)

variable (parsed : ParsedQuery) (query : Text) (options : SearchOptions) (projectNameTokens : List String)

def SearchOptions.limitOrDefault (options : SearchOptions) : Int64 := options.limit.getD 100

def rankRows (results : List (SearchResult S)) : List (SearchResult S) :=
  if !results.isEmpty && (!parsed.text.isEmpty || !query.isEmpty) then
    let scoringQuery := if !parsed.text.isEmpty then parsed.text else query
    (sortByExactNameThenScoreDesc unicode scoring scoringQuery options.deprioritize
      (results.map (SearchResult.rescore scoring scoringQuery projectNameTokens options.deprioritize))).take
        (asUsize options.limitOrDefault)
  else results

def filterRows (results : List (SearchResult S)) : List (SearchResult S) :=
  let results :=
    if !parsed.pathFilters.isEmpty then
      results.filter fun result => matchesSome unicode parsed.pathFilters result.node.filePath
    else results
  if !parsed.nameFilters.isEmpty then
    results.filter fun result => matchesSome unicode parsed.nameFilters result.node.name
  else results

end Ranking

section Searching

variable {S : Type} (unicode : Unicode) (scoring : Scoring S) (store : SearchStore S) (query : Text)
  (options : SearchOptions) (projectNameTokens : List String)

def mergedKinds : List NodeKind :=
  let parsed := parseQuery unicode query
  if !parsed.kinds.isEmpty then mergeUnique options.kinds parsed.kinds else options.kinds

def mergedLanguages : List Language :=
  let parsed := parseQuery unicode query
  if !parsed.languages.isEmpty then mergeUnique options.languages parsed.languages else options.languages

/-- The rows before the definers of multi-segment words. -/
def namedRows : List (SearchResult S) :=
  let kinds := mergedKinds unicode query options
  let languages := mergedLanguages unicode query options
  let base := baseRows unicode scoring store (parseQuery unicode query).text kinds languages options.limitOrDefault
    (options.offset.getD 0)
  seedNamedNodes scoring store options.seedNames kinds languages
    (seedQueryTerms unicode scoring store query kinds languages base)

def gatheredRows : List (SearchResult S) :=
  seedMultiSegmentDefiners unicode scoring store query (mergedKinds unicode query options)
    (namedRows unicode scoring store query options)

def searchNodes : List (SearchResult S) :=
  let parsed := parseQuery unicode query
  filterRows unicode parsed
    (rankRows unicode scoring parsed query options projectNameTokens (gatheredRows unicode scoring store query options))

end Searching

end Codegraph.Query
