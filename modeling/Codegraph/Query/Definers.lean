import Codegraph.Library.Rankings
import Codegraph.Query.Search

/- This file says which nodes the words of more than one segment bring into a search, and which rows rank within its
limit. -/

namespace Codegraph.Query
open Codegraph.Core Rankings List
open Codegraph.Watch.Scope (Text)

section Definers

variable {S : Type} (unicode : Unicode) (scoring : Scoring S) (store : SearchStore S) (kinds : List NodeKind)

/-- A node defines a word when it is of a listed kind and its name holds the word's segments in a row. -/
def defines (token : Text) (node : Node) : Bool :=
  (kinds.isEmpty || kinds.contains node.kind) && nameSegmentsContainRun unicode node.name.toList token

/-- The definers that the store lists for the letters of a word. A word of one segment has none, and neither has one
that is the name of a stored node. -/
def wordDefiners (token : Text) : List Node :=
  let needle := unicode.toLowercase (token.filter unicode.isAlphanumeric)
  if !isMultiSegmentIdentifier unicode token || !(store.nodesByLowerName (unicode.toLowercase token)).isEmpty ||
      needle.isEmpty then []
  else (store.seedableNodesByNameInfix needle infixCandidateCap).filter (defines unicode kinds token)

/-- The nodes of new ids, each id once. -/
def freshNodes (known : List String) : List Node → List Node
  | [] => []
  | node :: rest => if node.id ∈ known then freshNodes known rest else node :: freshNodes (known ++ [node.id]) rest

/-- Each word in turn brings in its first new definers, unless a node of that name is known. -/
def definersOf (known : List Node) : List Text → List Node
  | [] => []
  | token :: rest =>
    let brought := if known.any fun node => node.name.toList = token then []
      else (freshNodes (known.map Node.id) (wordDefiners unicode store kinds token)).take infixSeedCap
    brought ++ definersOf (known ++ brought) rest

def definerRow (node : Node) : SearchResult S := ⟨node, scoring.infixSeedScore⟩

variable {unicode scoring store kinds} {token : Text} {candidates : List Node} {results : List (SearchResult S)}

theorem any_id_iff {node : Node} :
    (results.any fun result => result.node.id = node.id) = true ↔ node.id ∈ results.map SearchResult.id := by
  simp [any_eq_true, SearchResult.id]

/-- The candidates of a word bring in the first new ones that define it. -/
theorem seedCandidates_eq (seeded : Nat) : seedCandidates unicode scoring kinds token candidates seeded results =
    results ++ ((freshNodes (results.map SearchResult.id) (candidates.filter (defines unicode kinds token))).take
      (infixSeedCap - seeded)).map (definerRow scoring) := by
  induction candidates generalizing seeded results with
  | nil => simp [seedCandidates, freshNodes]
  | cons node rest ih =>
    rw [seedCandidates]
    by_cases full : seeded ≥ infixSeedCap
    · rw [if_pos full, Nat.sub_eq_zero_of_le full, take_zero, map_nil, append_nil]
    rw [if_neg full]
    by_cases kind : (!kinds.isEmpty && !kinds.contains node.kind) = true
    · have other : defines unicode kinds token node = false := by
        simp only [Bool.and_eq_true, Bool.not_eq_true'] at kind
        simp only [defines, kind.1, kind.2, Bool.or_self, Bool.false_and]
      rw [if_pos kind, ih, filter_cons_of_neg (by simp [other])]
    rw [if_neg kind]
    by_cases run : (!nameSegmentsContainRun unicode node.name.toList token) = true
    · have other : defines unicode kinds token node = false := by
        simp only [Bool.not_eq_true'] at run
        simp only [defines, run, Bool.and_false]
      rw [if_pos run, ih, filter_cons_of_neg (by simp [other])]
    have defining : defines unicode kinds token node = true := by
      simp only [defines, Bool.and_eq_true]
      exact ⟨by simpa [or_iff_not_imp_left] using kind, by simpa using run⟩
    rw [if_neg run, filter_cons_of_pos defining, freshNodes]
    by_cases known : (results.any fun result => result.node.id = node.id) = true
    · rw [if_pos known, if_pos (any_id_iff.mp known), ih]
    · have left : infixSeedCap - seeded = (infixSeedCap - (seeded + 1)) + 1 := by omega
      rw [if_neg known, if_neg fun listed => known (any_id_iff.mpr listed), ih, left, take_succ_cons,
        map_cons, append_assoc, map_append]
      rfl

theorem definerRow_nodes (nodes : List Node) : (nodes.map (definerRow scoring)).map SearchResult.node = nodes := by
  rw [map_map]
  exact map_id nodes

/-- A token adds the definers of its words, up to the cap, unless a row has its name. -/
theorem seedToken_eq : seedToken unicode scoring store kinds results token =
    results ++ (if (results.map SearchResult.node).any fun node => node.name.toList = token then []
      else (freshNodes ((results.map SearchResult.node).map Node.id) (wordDefiners unicode store kinds token)).take
        infixSeedCap).map (definerRow scoring) := by
  have ids : (results.map SearchResult.node).map Node.id = results.map SearchResult.id := map_map
  have named : ((results.map SearchResult.node).any fun node => node.name.toList = token) =
      results.any fun result => result.node.name.toList = token := any_map
  have without (idle : wordDefiners unicode store kinds token = []) : results =
      results ++ (if results.any fun result => result.node.name.toList = token then [] else (freshNodes
        (results.map SearchResult.id) (wordDefiners unicode store kinds token)).take infixSeedCap).map
          (definerRow scoring) := by
    rw [idle]
    split <;> simp [freshNodes]
  rw [seedToken, ids, named]
  by_cases segments : (!isMultiSegmentIdentifier unicode token) = true
  · rw [if_pos segments]
    exact without (if_pos (by simp [segments]))
  rw [if_neg segments]
  by_cases taken : (results.any fun result => result.node.name.toList = token) = true
  · rw [if_pos taken, if_pos taken, map_nil, append_nil]
  rw [if_neg taken]
  by_cases symbol : (!(store.nodesByLowerName (unicode.toLowercase token)).isEmpty) = true
  · rw [if_pos symbol]
    exact without (if_pos (by simp [symbol]))
  rw [if_neg symbol]
  dsimp only
  by_cases empty : (unicode.toLowercase (token.filter unicode.isAlphanumeric)).isEmpty = true
  · rw [if_pos empty]
    exact without (if_pos (by simp [empty]))
  · have listed : wordDefiners unicode store kinds token = (store.seedableNodesByNameInfix
        (unicode.toLowercase (token.filter unicode.isAlphanumeric)) infixCandidateCap).filter
          (defines unicode kinds token) :=
      if_neg (by simp only [Bool.or_eq_true, not_or]; exact ⟨⟨segments, symbol⟩, empty⟩)
    rw [if_neg empty, if_neg taken, listed]
    exact seedCandidates_eq 0

/-- The rows that the words of more than one segment add are their definers. -/
theorem seedMultiSegmentDefiners_eq (query : Text) :
    seedMultiSegmentDefiners unicode scoring store query kinds results =
    results ++ (definersOf unicode store kinds (results.map SearchResult.node) (splitWhitespace unicode query)).map
      (definerRow scoring) := by
  rw [seedMultiSegmentDefiners]
  induction splitWhitespace unicode query generalizing results with
  | nil => simp [definersOf]
  | cons token rest ih =>
    rw [foldl_cons, ih, definersOf, seedToken_eq, map_append, definerRow_nodes, map_append,
      append_assoc]

end Definers

end Codegraph.Query
