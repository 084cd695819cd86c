import Codegraph.Graph.Tables
import Codegraph.Library.Growth
import Codegraph.Query.Definers

/- This file tells when the rows of a search keep to its filters. -/

namespace Codegraph.Query
open Codegraph.Core Codegraph.Graph Growth Rankings List
open Codegraph.Watch.Scope (Text)

section Sources

variable {S : Type} {unicode : Unicode} {scoring : Scoring S} {store : SearchStore S} {kinds : List NodeKind}
  {languages : List Language} {results : List (SearchResult S)} {node : Node} {score : S} {text : Text}

/-- The rows that a stage may add without breaking a filter on kinds and languages. -/
def AllowedRow (kinds : List NodeKind) (languages : List Language) (row : SearchResult S) : Prop :=
  Allowed kinds languages row.node

theorem not_mem_ids (absent : ¬(results.any fun result => result.node.id = node.id) = true) :
    node.id ∉ results.map SearchResult.id := by
  intro known
  obtain ⟨row, member, same⟩ := mem_map.mp known
  exact absent (any_eq_true.mpr ⟨row, member, decide_eq_true same⟩)

theorem offer_grows {fresh : SearchResult S → Prop} (good : fresh ⟨node, score⟩) :
    Grows SearchResult.id fresh results (offer score results node) := by
  rw [offer]
  split
  · exact .refl
  · rename_i absent
    exact .concat (not_mem_ids absent) good

theorem seedRows_grows (name : Text) : Grows SearchResult.id (AllowedRow kinds languages) results
    ((store.nodesByExactNameNocase name kinds languages).foldl (offer score) results) :=
  .foldl fun node listed _ => offer_grows (store.nocaseAllowed name kinds languages node listed)

theorem seedQueryTerms_grows (query : Text) : Grows SearchResult.id (AllowedRow kinds languages) results
    (seedQueryTerms unicode scoring store query kinds languages results) := by
  rw [seedQueryTerms]
  split
  · exact .foldl fun term _ _ => seedRows_grows term
  · exact .refl

theorem seedNamedNodes_grows (seedNames : List Text) : Grows SearchResult.id (AllowedRow kinds languages) results
    (seedNamedNodes scoring store seedNames kinds languages results) :=
  .foldl fun name _ _ => seedRows_grows name

theorem Filtered.grows {after : List (SearchResult S)} (filtered : Filtered kinds languages results)
    (grows : Grows SearchResult.id (AllowedRow kinds languages) results after) : Filtered kinds languages after :=
  ⟨fun row member => (grows.mem member).elim (filtered.allowed row) id, grows.distinct filtered.distinct⟩

theorem filtered_nil : Filtered kinds languages ([] : List (SearchResult S)) :=
  ⟨fun _ member => (not_mem_nil member).elim, nodup_nil⟩

theorem searchNodesFuzzy_filtered (limit : Int64) :
    Filtered kinds languages (searchNodesFuzzy unicode scoring store text kinds languages limit) := by
  apply filtered_nil.grows
  refine .foldl fun candidate _ results => .foldl fun node listed found => ?_
  rw [offerBelow]
  split
  · exact .refl
  · exact offer_grows (store.exactAllowed candidate.1 kinds languages node listed)

theorem filtered_ite {condition : Prop} [Decidable condition] {first second : List (SearchResult S)}
    (left : Filtered kinds languages first) (right : Filtered kinds languages second) :
    Filtered kinds languages (if condition then first else second) := by
  split
  · exact left
  · exact right

/-- Whichever query finds the first rows, they keep to the kinds and the languages. -/
theorem baseRows_filtered (limit offset : Int64) :
    Filtered kinds languages (baseRows unicode scoring store text kinds languages limit offset) := by
  have first : Filtered kinds languages (if !text.isEmpty then
      store.searchNodesFtsFiltered text kinds languages limit offset
      else store.searchAllByFilters kinds languages (limit * 5)) :=
    filtered_ite (store.ftsFiltered text kinds languages limit offset) (store.allFiltered kinds languages (limit * 5))
  exact filtered_ite (searchNodesFuzzy_filtered limit)
    (filtered_ite (store.likeFiltered text kinds languages limit offset) first)

/-- A definer is of a listed kind. -/
def ListedKind (kinds : List NodeKind) (row : SearchResult S) : Prop := kinds ≠ [] → row.node.kind ∈ kinds

theorem seedCandidates_grows (token : Text) (candidates : List Node) (seeded : Nat) :
    Grows SearchResult.id (ListedKind kinds) results
      (seedCandidates unicode scoring kinds token candidates seeded results) := by
  induction candidates generalizing seeded results with
  | nil => exact .refl
  | cons node rest ih =>
    rw [seedCandidates]
    split
    · exact .refl
    · split
      · exact ih seeded
      · rename_i listed
        split
        · exact ih seeded
        · split
          · exact ih seeded
          · rename_i absent
            refine .trans (.concat (not_mem_ids absent) ?_) (ih (seeded + 1))
            intro some_
            simpa [some_] using listed

theorem seedMultiSegmentDefiners_grows (query : Text) : Grows SearchResult.id (ListedKind kinds) results
    (seedMultiSegmentDefiners unicode scoring store query kinds results) := by
  refine .foldl fun token _ found => ?_
  rw [seedToken]
  split
  · exact .refl
  · split
    · exact .refl
    · split
      · exact .refl
      · simp only
        split
        · exact .refl
        · exact seedCandidates_grows token _ 0

end Sources

section Gathering

variable {S : Type} (unicode : Unicode) (scoring : Scoring S) (store : SearchStore S) (query : Text)
  (options : SearchOptions) (projectNameTokens : List String)

/-- The nodes that the words of more than one segment bring in, behind the rows that the filtered queries of the store
give. -/
def definers : List Node :=
  definersOf unicode store (mergedKinds unicode query options)
    ((namedRows unicode scoring store query options).map SearchResult.node) (splitWhitespace unicode query)

/-- All the rows that compete for the places of a search. -/
def competingRows : List (SearchResult S) :=
  namedRows unicode scoring store query options ++
    (definers unicode scoring store query options).map (definerRow scoring)

theorem gatheredRows_eq : gatheredRows unicode scoring store query options =
    competingRows unicode scoring store query options := seedMultiSegmentDefiners_eq query

theorem namedRows_filtered : Filtered (mergedKinds unicode query options) (mergedLanguages unicode query options)
    (namedRows unicode scoring store query options) :=
  ((baseRows_filtered _ _).grows (seedQueryTerms_grows query)).grows (seedNamedNodes_grows options.seedNames)

theorem gatheredRows_grows : Grows SearchResult.id (ListedKind (mergedKinds unicode query options))
    (namedRows unicode scoring store query options) (gatheredRows unicode scoring store query options) :=
  seedMultiSegmentDefiners_grows query

theorem gatheredRows_distinct : ((gatheredRows unicode scoring store query options).map SearchResult.id).Nodup :=
  (gatheredRows_grows unicode scoring store query options).distinct
    (namedRows_filtered unicode scoring store query options).distinct

/-- Only a query with words brings in definers. -/
theorem definers_nil : definers unicode scoring store [] options = [] := rfl

end Gathering

section Ranking

variable {S : Type} {unicode : Unicode} {scoring : Scoring S} {parsed : ParsedQuery} {query : Text}
  {options : SearchOptions} {projectNameTokens : List String} {rows : List (SearchResult S)} {row : SearchResult S}

/-- The order loses no row and adds none. -/
theorem sort_perm (scoringQuery : Text) (deprioritize : Option (String → Bool)) :
    (sortByExactNameThenScoreDesc unicode scoring scoringQuery deprioritize rows).Perm rows :=
  (perm_insertionSort _ _).trans (perm_insertionSort _ _)

theorem rankRows_nodes : ∃ ordered :
    List (SearchResult S), (ordered.map SearchResult.node).Perm (rows.map SearchResult.node) ∧
    (rankRows unicode scoring parsed query options projectNameTokens rows).Sublist ordered := by
  rw [rankRows]
  split
  · refine ⟨_, ?_, take_sublist _ _⟩
    refine ((sort_perm _ _).map SearchResult.node).trans ?_
    rw [map_map]
    exact .refl _
  · exact ⟨rows, .refl _, .refl _⟩

theorem rankRows_mem (ranked : row ∈ rankRows unicode scoring parsed query options projectNameTokens rows) :
    ∃ source ∈ rows, source.node = row.node := by
  obtain ⟨ordered, same, inside⟩ := @rankRows_nodes S unicode scoring parsed query options projectNameTokens rows
  exact mem_map.mp (same.mem_iff.mp (mem_map_of_mem (inside.subset ranked)))

theorem rankRows_distinct (distinct : (rows.map SearchResult.id).Nodup) :
    ((rankRows unicode scoring parsed query options projectNameTokens rows).map SearchResult.id).Nodup := by
  obtain ⟨ordered, same, inside⟩ := @rankRows_nodes S unicode scoring parsed query options projectNameTokens rows
  have ids := same.map Node.id
  rw [map_map, map_map] at ids
  exact (ids.nodup_iff.mpr distinct).sublist (inside.map SearchResult.id)

/-- The text that the scores are about. -/
def scoringText (parsed : ParsedQuery) (query : Text) : Text := if !parsed.text.isEmpty then parsed.text else query

section Places

variable (unicode : Unicode) (scoring : Scoring S) (scoringQuery : Text) (options : SearchOptions)
  (projectNameTokens : List String)

/-- An exact name that is not deprioritized comes first. -/
def exactCmp (first second : SearchResult S) : Ordering :=
  let isExact (result : SearchResult S) : Bool :=
    isExactNameMatch unicode result.node.name.toList scoringQuery && !isDeprioritized options.deprioritize result.node
  compare (isExact second) (isExact first)

/-- The better score comes first, the bonus of its node included. -/
def scoreCmp (first second : SearchResult S) : Ordering :=
  scoring.betterCmp (first.rescore scoring scoringQuery projectNameTokens options.deprioritize).score
    (second.rescore scoring scoringQuery projectNameTokens options.deprioritize).score

open Classical in
/-- A row ranks within the limit when fewer other rows rank before it. -/
def RanksWithin (rows : List (SearchResult S)) (row : SearchResult S) : Prop :=
  rows.countP (fun other => RanksBefore (fun first second => (exactCmp unicode scoringQuery options first second).then
    (scoreCmp scoring scoringQuery options projectNameTokens first second)) rows other row) <
      asUsize options.limitOrDefault

instance : Std.TransCmp (exactCmp (S := S) unicode scoringQuery options) :=
  (transCmp_map (fun result : SearchResult S => isExactNameMatch unicode result.node.name.toList scoringQuery &&
    !isDeprioritized options.deprioritize result.node) compare).opposite

instance : Std.TransCmp (scoreCmp scoring scoringQuery options projectNameTokens) :=
  have := scoring.ordered
  transCmp_map (fun result : SearchResult S =>
    (result.rescore scoring scoringQuery projectNameTokens options.deprioritize).score) scoring.betterCmp

end Places

/-- The rows are ordered by their names and their scores. -/
theorem sort_rescored (scoringQuery : Text) :
    sortByExactNameThenScoreDesc unicode scoring scoringQuery options.deprioritize
      (rows.map (SearchResult.rescore scoring scoringQuery projectNameTokens options.deprioritize)) =
    ((rows.insertionSort fun first second =>
      (scoreCmp scoring scoringQuery options projectNameTokens first second).isLE)
      |>.insertionSort fun first second => (exactCmp unicode scoringQuery options first second).isLE).map
        (SearchResult.rescore scoring scoringQuery projectNameTokens options.deprioritize) := by
  have scored : sortByScoreDesc scoring
      (rows.map (.rescore scoring scoringQuery projectNameTokens options.deprioritize)) =
        (rows.insertionSort fun first second =>
          (scoreCmp scoring scoringQuery options projectNameTokens first second).isLE).map
            (.rescore scoring scoringQuery projectNameTokens options.deprioritize) := by
    rw [sortByScoreDesc, eq_comm]
    refine map_insertionSort _ _ _ _ ?_
    exact fun _ _ _ _ => .rfl
  rw [sortByExactNameThenScoreDesc, scored, eq_comm]
  refine map_insertionSort _ _ _ _ ?_
  exact fun _ _ _ _ => .rfl

/-- The rows that a query leaves are the rescored ones that rank within its limit. -/
theorem mem_rankRows (asked : query ≠ []) (distinct : (rows.map SearchResult.id).Nodup) :
    row ∈ rankRows unicode scoring parsed query options projectNameTokens rows ↔ ∃ source ∈ rows,
      source.rescore scoring (scoringText parsed query) projectNameTokens options.deprioritize = row ∧
        RanksWithin unicode scoring (scoringText parsed query) options projectNameTokens rows source := by
  classical
  have words : (!parsed.text.isEmpty || !query.isEmpty) = true := by simp [asked]
  rcases rows with _ | ⟨first, rest⟩
  · simp [rankRows]
  have some_ : (!(first :: rest).isEmpty) = true := rfl
  rw [rankRows, some_, words, Bool.and_self, if_pos rfl]
  dsimp only
  rw [← scoringText, sort_rescored, ← map_take, mem_map]
  constructor
  · rintro ⟨source, chosen, same⟩
    have listed : source ∈ first :: rest :=
      (mem_insertionSort _).mp ((mem_insertionSort _).mp (mem_of_mem_take chosen))
    exact ⟨source, listed, same, (mem_take_sort_sort distinct.of_map listed _).mp chosen⟩
  · rintro ⟨source, listed, same, within⟩
    exact ⟨source, (mem_take_sort_sort distinct.of_map listed _).mpr within, same⟩

/-- A query bounds its rows, as long as the limit is no negative number. -/
theorem rankRows_length (asked : query ≠ []) :
    (rankRows unicode scoring parsed query options projectNameTokens rows).length ≤ asUsize options.limitOrDefault := by
  rw [rankRows]
  split
  · exact length_take_le _ _
  · rename_i idle
    have none_ : rows = [] := by simpa [asked] using idle
    rw [none_]
    exact Nat.zero_le _

theorem asUsize_of_nonneg {value : Int64} (positive : 0 ≤ value.toInt) : (asUsize value : Int) = value.toInt := by
  have signed : value.toInt = if 2 * value.toUInt64.toNat < 2 ^ 64 then (value.toUInt64.toNat : Int)
      else (value.toUInt64.toNat : Int) - (2 ^ 64 : Nat) := rfl
  have small := value.toUInt64.toNat_lt
  rw [asUsize]
  split at signed <;> omega

theorem filterRows_sublist : (filterRows unicode parsed rows).Sublist rows := by
  simp only [filterRows]
  split <;> split
  · exact filter_sublist.trans filter_sublist
  · exact filter_sublist
  · exact filter_sublist
  · exact .refl _

/-- A row is left when its path and its name pass the filters. -/
theorem mem_filterRows : row ∈ filterRows unicode parsed rows ↔ row ∈ rows ∧
    (parsed.nameFilters ≠ [] → matchesSome unicode parsed.nameFilters row.node.name = true) ∧
      (parsed.pathFilters ≠ [] → matchesSome unicode parsed.pathFilters row.node.filePath = true) := by
  by_cases paths : parsed.pathFilters = [] <;> by_cases names : parsed.nameFilters = [] <;>
    simp [filterRows, paths, names, and_comm]

end Ranking

section Searching

variable {S : Type} (unicode : Unicode) (scoring : Scoring S) (store : SearchStore S) (query : Text)
  (options : SearchOptions) (projectNameTokens : List String)

/-- A text holds one of the filters when the case is ignored. -/
def HoldsSome (filters : List Text) (text : String) : Prop :=
  ∃ filter ∈ filters, unicode.toLowercase filter <:+: unicode.toLowercase text.toList

/-- The rows satisfy every filter that the query and the options ask for, and a query has no more rows than its limit.
-/
structure KeepsFilters (rows : List (SearchResult S)) : Prop where
  kinds : mergedKinds unicode query options ≠ [] → ∀ row ∈ rows, row.node.kind ∈ mergedKinds unicode query options
  languages : mergedLanguages unicode query options ≠ [] →
    ∀ row ∈ rows, row.node.language ∈ mergedLanguages unicode query options
  paths : (parseQuery unicode query).pathFilters ≠ [] →
    ∀ row ∈ rows, HoldsSome unicode (parseQuery unicode query).pathFilters row.node.filePath
  names : (parseQuery unicode query).nameFilters ≠ [] →
    ∀ row ∈ rows, HoldsSome unicode (parseQuery unicode query).nameFilters row.node.name
  distinct : (rows.map SearchResult.id).Nodup
  limit : query ≠ [] → (rows.length : Int) ≤ options.limitOrDefault.toInt

/-- A node passes the filters on names and paths. -/
structure PassesFilters (node : Node) : Prop where
  names : (parseQuery unicode query).nameFilters ≠ [] →
    HoldsSome unicode (parseQuery unicode query).nameFilters node.name
  paths : (parseQuery unicode query).pathFilters ≠ [] →
    HoldsSome unicode (parseQuery unicode query).pathFilters node.filePath

/-- A definer that ranks within the limit and passes the filters on names and paths is in a listed language. -/
def DefinersListed : Prop :=
  mergedLanguages unicode query options ≠ [] → ∀ definer ∈ definers unicode scoring store query options,
    RanksWithin unicode scoring (scoringText (parseQuery unicode query) query) options projectNameTokens
        (competingRows unicode scoring store query options) (definerRow scoring definer) →
      PassesFilters unicode query definer → definer.language ∈ mergedLanguages unicode query options

theorem matchesSome_iff {filters : List Text} {text : String} :
    matchesSome unicode filters text = true ↔ HoldsSome unicode filters text := by
  simp [matchesSome, HoldsSome, Text.contains]

variable {unicode scoring store query options projectNameTokens} {row : SearchResult S}

theorem mem_searchNodes : row ∈ searchNodes unicode scoring store query options projectNameTokens ↔
    row ∈ rankRows unicode scoring (parseQuery unicode query) query options projectNameTokens
      (gatheredRows unicode scoring store query options) ∧ PassesFilters unicode query row.node := by
  simp only [searchNodes, mem_filterRows, matchesSome_iff]
  exact and_congr_right fun _ => ⟨fun passes => ⟨passes.1, passes.2⟩, fun passes => ⟨passes.names, passes.paths⟩⟩

/-- A found row comes from a query with filters, or it is a definer of a listed kind that ranks within the limit. -/
theorem searchNodes_source (found : row ∈ searchNodes unicode scoring store query options projectNameTokens) :
    Allowed (mergedKinds unicode query options) (mergedLanguages unicode query options) row.node ∨
      (mergedKinds unicode query options ≠ [] → row.node.kind ∈ mergedKinds unicode query options) ∧
        row.node ∈ definers unicode scoring store query options ∧
        RanksWithin unicode scoring (scoringText (parseQuery unicode query) query) options projectNameTokens
          (competingRows unicode scoring store query options) (definerRow scoring row.node) := by
  have ranked := (mem_searchNodes.mp found).1
  have distinct := gatheredRows_distinct unicode scoring store query options
  have grows := gatheredRows_grows unicode scoring store query options
  rw [gatheredRows_eq] at ranked distinct grows
  by_cases asked : query = []
  · obtain ⟨source, gathered, same⟩ := rankRows_mem ranked
    subst asked
    rw [competingRows, definers_nil, map_nil, append_nil] at gathered
    exact .inl (same ▸ (namedRows_filtered unicode scoring store [] options).allowed source gathered)
  · obtain ⟨source, gathered, rfl, within⟩ := (mem_rankRows asked distinct).mp ranked
    rcases grows.mem gathered with named | listed
    · exact .inl ((namedRows_filtered unicode scoring store query options).allowed source named)
    rcases mem_append.mp gathered with named | brought
    · exact .inl ((namedRows_filtered unicode scoring store query options).allowed source named)
    · obtain ⟨definer, member, rfl⟩ := mem_map.mp brought
      exact .inr ⟨listed, member, within⟩

/-- A definer that ranks within the limit and passes the other filters is found. -/
theorem definer_found {definer : Node} (brought : definer ∈ definers unicode scoring store query options)
    (within : RanksWithin unicode scoring (scoringText (parseQuery unicode query) query) options projectNameTokens
      (competingRows unicode scoring store query options) (definerRow scoring definer))
    (passes : PassesFilters unicode query definer) :
    ∃ row ∈ searchNodes unicode scoring store query options projectNameTokens, row.node = definer := by
  have asked : query ≠ [] := by
    rintro rfl
    rw [definers_nil] at brought
    cases brought
  have distinct := gatheredRows_distinct unicode scoring store query options
  rw [gatheredRows_eq] at distinct
  refine ⟨(definerRow scoring definer).rescore scoring (scoringText (parseQuery unicode query) query) projectNameTokens
    options.deprioritize, mem_searchNodes.mpr ⟨?_, passes⟩, rfl⟩
  rw [gatheredRows_eq, mem_rankRows asked distinct]
  exact ⟨_, mem_append_right _ (mem_map_of_mem brought), rfl, within⟩

/-- No node is found twice. -/
theorem searchNodes_distinct :
    ((searchNodes unicode scoring store query options projectNameTokens).map SearchResult.id).Nodup :=
  (rankRows_distinct (gatheredRows_distinct unicode scoring store query options)).sublist (filterRows_sublist.map _)

theorem searchNodes_length (asked : query ≠ []) (positive : 0 ≤ options.limitOrDefault.toInt) :
    ((searchNodes unicode scoring store query options projectNameTokens).length : Int) ≤
      options.limitOrDefault.toInt := by
  have ranked := @rankRows_length S unicode scoring (parseQuery unicode query) query options projectNameTokens
    (gatheredRows unicode scoring store query options) asked
  have filtered : (searchNodes unicode scoring store query options projectNameTokens).length ≤ _ :=
    filterRows_sublist.length_le
  rw [← asUsize_of_nonneg positive]
  omega

end Searching

/-- A function whose name holds the two segments of a query. -/
def definer : Node := { bareNode "getFooBar" .function with language := .typeScript }

/-- The function is in no language that the query asks for, so only the segments of its name find it. -/
def definerStore : SearchStore Nat where
  searchNodesFtsFiltered _ _ _ _ _ := []
  searchAllByFilters _ _ _ := []
  searchNodesLike _ _ _ _ _ := []
  nodesByExactNameNocase _ _ _ := []
  nodesByExactNameFiltered _ _ _ := []
  nodesByLowerName _ := []
  seedableNodesByNameInfix needle _ := if needle = "foobar".toList then [definer] else []
  allNodeNames := ["getFooBar"]
  ftsFiltered _ _ _ _ _ := filtered_nil
  allFiltered _ _ _ := filtered_nil
  likeFiltered _ _ _ _ _ := filtered_nil
  nocaseAllowed _ _ _ _ member := (List.not_mem_nil member).elim
  exactAllowed _ _ _ _ member := (List.not_mem_nil member).elim

def definerScoring : Scoring Nat where
  infixSeedScore := 1
  namedSeedScore := 1
  fuzzyScore _ := 1
  maxScore scores := scores.foldl max 0
  add := Nat.add
  bonus _ _ _ _ := 0
  betterCmp first second := compare second first
  ordered := Std.TransCmp.opposite

def definerOptions : SearchOptions := ⟨[], [], none, none, [], none⟩

def definerQuery : Text := "lang:rust fooBar".toList

end Codegraph.Query
