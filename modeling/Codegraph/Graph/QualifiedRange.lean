import Codegraph.Graph.Tables
import Codegraph.Library.LexRanges
import Codegraph.Library.Utf8
import Mathlib.Data.List.Sort
import Mathlib.Data.List.Lex

/- This file reads the nodes whose qualified name starts with a given text from the range of an index. -/

namespace Codegraph.Graph
open Codegraph.Core

def charFromU32 (value : Nat) : Option Char :=
  if value.isValidChar then some (Char.ofNat value) else none

/-- SQLite compares texts by their UTF-8 bytes. -/
abbrev TextBefore (first second : List Char) : Prop :=
  List.Lex (· < ·) (Utf8.bytes first) (Utf8.bytes second)

def GraphStore.nodesInRange (store : GraphStore) (lower upper : List Char) : List Node :=
  (store.nodes.filter fun node =>
    ¬ TextBefore node.qualifiedName.toList lower ∧ TextBefore node.qualifiedName.toList upper).mergeSort
      fun first second => ¬ TextBefore second.id.toList first.id.toList

/-- The upper bound replaces the last character by the next code point. -/
def GraphStore.nodesWithQualifiedPrefix (store : GraphStore) (start : List Char) : List Node :=
  match start.getLast? with
  | none => []
  | some last => match charFromU32 (last.toNat + 1) with
    | none => []
    | some next => store.nodesInRange start (start.dropLast ++ [next])

/-- The nodes that the search is for. -/
def GraphStore.nodesStartingWith (store : GraphStore) (start : List Char) : List Node :=
  store.nodes.filter fun node => start <+: node.qualifiedName.toList

/-- The last character of the text has a next code point, which the surrogates and the end of the range deny. -/
def EndsBeforeNext (start : List Char) : Prop :=
  ∃ last, start.getLast? = some last ∧ last.toNat ≠ 0xD7FF ∧ last.toNat ≠ 0x10FFFF

variable {store : GraphStore} {start : List Char} {last next : Char}

theorem charFromU32_toNat {value : Nat} (found : charFromU32 value = some next) : next.toNat = value := by
  unfold charFromU32 at found
  split at found
  next valid =>
    obtain rfl := Option.some.inj found
    rw [Char.ofNat, dif_pos valid]
    exact UInt32.toNat_ofNatLT
  next => cases found

theorem charFromU32_eq_none : charFromU32 (last.toNat + 1) = none ↔ last.toNat = 0xD7FF ∨ last.toNat = 0x10FFFF := by
  have valid : last.toNat.isValidChar := last.valid
  rw [charFromU32, ite_eq_right_iff]
  simp only [Nat.isValidChar, reduceCtorEq, imp_false] at *
  omega

/-- The next code point follows the character in the order of characters. -/
theorem charFromU32_follows (found : charFromU32 (last.toNat + 1) = some next) (value : Char) :
    value < next ↔ value ≤ last := by
  have same := charFromU32_toNat found
  show value.toNat < next.toNat ↔ value.toNat ≤ last.toNat
  omega

theorem GraphStore.nodesInRange_perm (lower upper : List Char) :
    (store.nodesInRange lower upper).Perm (store.nodes.filter fun node =>
      ¬ TextBefore node.qualifiedName.toList lower ∧ TextBefore node.qualifiedName.toList upper) :=
  List.mergeSort_perm _ _

/-- The range up to the next code point holds the nodes that the search is for. -/
theorem GraphStore.nodesInRange_next {front : List Char} (found : charFromU32 (last.toNat + 1) = some next) :
    (store.nodesInRange (front ++ [last]) (front ++ [next])).Perm (store.nodesStartingWith (front ++ [last])) := by
  have between (node : Node) : ¬ TextBefore node.qualifiedName.toList (front ++ [last]) ∧
      TextBefore node.qualifiedName.toList (front ++ [next]) ↔ front ++ [last] <+: node.qualifiedName.toList := by
    rw [TextBefore, TextBefore, Utf8.bytes_lex_iff, Utf8.bytes_lex_iff]
    exact LexRanges.between_iff (charFromU32_follows found)
  refine (GraphStore.nodesInRange_perm _ _).trans (List.Perm.of_eq ?_)
  exact List.filter_congr fun node _ => decide_eq_decide.mpr (between node)

theorem GraphStore.nodesStartingWith_eq_nil :
    store.nodesStartingWith start = [] ↔ ∀ node ∈ store.nodes, ¬ start <+: node.qualifiedName.toList := by
  simp only [GraphStore.nodesStartingWith, List.filter_eq_nil_iff, decide_eq_true_eq]

theorem GraphStore.nodesWithQualifiedPrefix_concat (front : List Char) :
    store.nodesWithQualifiedPrefix (front ++ [last]) = match charFromU32 (last.toNat + 1) with
      | none => []
      | some next => store.nodesInRange (front ++ [last]) (front ++ [next]) := by
  simp only [GraphStore.nodesWithQualifiedPrefix, List.getLast?_concat, List.dropLast_concat]

theorem EndsBeforeNext.range (ends : EndsBeforeNext start) :
    (store.nodesWithQualifiedPrefix start).Perm (store.nodesStartingWith start) := by
  obtain ⟨last, found, notGap, notEnd⟩ := ends
  obtain ⟨front, rfl⟩ := List.getLast?_eq_some_iff.mp found
  rw [GraphStore.nodesWithQualifiedPrefix_concat]
  cases bumped : charFromU32 (last.toNat + 1) with
  | none => exact absurd (charFromU32_eq_none.mp bumped) (not_or.mpr ⟨notGap, notEnd⟩)
  | some next => exact GraphStore.nodesInRange_next bumped

/-- A text without a next one has no range. -/
theorem GraphStore.nodesWithQualifiedPrefix_none (ends : ¬ EndsBeforeNext start) :
    store.nodesWithQualifiedPrefix start = [] := by
  rcases List.eq_nil_or_concat' start with rfl | ⟨front, last, rfl⟩
  · rfl
  · have absent : charFromU32 (last.toNat + 1) = none := by
      rw [charFromU32_eq_none]
      by_contra other
      exact ends ⟨last, List.getLast?_concat, not_or.mp other⟩
    rw [GraphStore.nodesWithQualifiedPrefix_concat, absent]

/-- The range holds exactly the nodes whose name starts with the text where the text has a next one or no name
starts with it. -/
theorem prefix_range_exact_iff (store : GraphStore) (start : List Char) :
    (store.nodesWithQualifiedPrefix start).Perm (store.nodesStartingWith start) ↔
      EndsBeforeNext start ∨ ∀ node ∈ store.nodes, ¬ start <+: node.qualifiedName.toList := by
  by_cases ends : EndsBeforeNext start
  · exact iff_of_true ends.range (.inl ends)
  · rw [GraphStore.nodesWithQualifiedPrefix_none ends, List.nil_perm, GraphStore.nodesStartingWith_eq_nil,
      or_iff_right ends]

/-- The surrogates follow U+D7FF, so a name that starts with it is not found. -/
theorem surrogate_gap_not_found : ¬ ∀ (store : GraphStore) (start : List Char),
      (store.nodesWithQualifiedPrefix start).Perm (store.nodesStartingWith start) := by
  intro exact
  have found := exact (.inTableOrder [bareNode "\uD7FFa" .function] [] (by decide)) [Char.ofNat 0xD7FF]
  exact absurd found.length_eq (by decide)

end Codegraph.Graph
