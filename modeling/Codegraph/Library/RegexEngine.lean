import Codegraph.Library.Repainting

/- This file is about the matches of an engine for regular expressions in a text, by their bytes. -/

namespace RegexEngine
open Utf8 Repainting

/-- The bytes of a match and those of its first group. -/
structure Match where
  span : Nat × Nat
  group : Option (Nat × Nat) := none

/-- A match that is searched for from a place on, of a pattern that matches no empty text. -/
structure Later (start : Nat) extends Match where
  further : start < span.2

/-- An engine that takes its patterns by their text. -/
structure Engine where
  isMatch : String → List Char → Bool
  isMatchBytes : String → List Char → Bool
  findIter : String → List Char → List Match
  findAt : String → List Char → (start : Nat) → Option (Later start)

/-- A match of a text and its group are whole characters. -/
structure Match.OnChars (text : List Char) (found : Match) : Prop where
  opens : AtChar text found.span.1
  closes : AtChar text found.span.2
  group : ∀ span ∈ found.group, AtChar text span.1 ∧ AtChar text span.2

/-- All matches are on character boundaries. -/
structure Engine.OnChars (engine : Engine) : Prop where
  findIter : ∀ pattern text, ∀ found ∈ engine.findIter pattern text, found.OnChars text
  findAt : ∀ pattern text start, ∀ found ∈ engine.findAt pattern text start, found.toMatch.OnChars text

end RegexEngine
