import Codegraph.Library.JsonCommas
import Codegraph.Watch.Scope

/- This file models how resolution strips comments and trailing commas from configuration files. -/

namespace Codegraph.Resolve.Jsonc
open Codegraph.Watch.Scope (Text)
open JsonTokens

/-- A comma is removed when white space alone stands between it and a closing bracket. -/
def stripTrailingCommas (src : Text) : Text := dropCommas charClosers Scanning.isWhitespace src

def stripJsonc (src : Text) : Text := stripTrailingCommas (dropComments charMarks .outside src)

/-- No comma of a string is followed by white space and a closing bracket. -/
def NoClosingComma (body : Text) : Prop :=
  ∀ front white bracket back, body = front ++ ',' :: (white ++ bracket :: back) →
    (∀ c ∈ white, Scanning.isWhitespace c = true) → bracket ≠ '}' ∧ bracket ≠ ']'

/-- Only a comma before a closing bracket is stripped. -/
theorem stripTrailingCommas_eq_self_iff (body : Text) : stripTrailingCommas body = body ↔ NoClosingComma body := by
  rw [stripTrailingCommas, dropCommas_eq_self_iff, NoClosingComma]
  constructor
  · intro kept front white bracket back shape blanks
    have opened := kept front (white ++ bracket :: back) shape
    rw [Bool.eq_false_iff, ne_eq, closes_eq_true_iff blank_isWhitespace] at opened
    constructor <;> rintro rfl
    · exact opened ⟨white, '}', back, rfl, blanks, .inl rfl⟩
    · exact opened ⟨white, ']', back, rfl, blanks, .inr rfl⟩
  · intro kept front rest shape
    rw [Bool.eq_false_iff, ne_eq, closes_eq_true_iff blank_isWhitespace]
    rintro ⟨white, bracket, back, rfl, blanks, closing⟩
    obtain ⟨brace, bracket⟩ := kept front white bracket back shape blanks
    rcases closing with rfl | rfl
    · exact brace rfl
    · exact bracket rfl

section Reading

variable {Number : Type} (reader : Reader Number) (fromStr : Text → Option (Value Number))

/-- A text with comments and trailing commas is stripped to the value of its document when no string has a closing
comma, and where objects do not repeat their names only then. -/
theorem strip_jsonc_keeps_value_iff (reads : ∀ text, fromStr text = readText reader text) {text : Text} {doc : Doc}
    (spelled : commentedDoc text = some doc) :
    ((∀ body, .string body ∈ doc.tokens → NoClosingComma body) → fromStr (stripJsonc text) = doc.value reader) ∧
      (doc.Distinct → ∀ value, doc.value reader = some value →
        (fromStr (stripJsonc text) = some value ↔ ∀ body, .string body ∈ doc.tokens → NoClosingComma body)) := by
  have stripped : fromStr (stripJsonc text) = (doc.rewrite stripTrailingCommas).value reader := by
    rw [reads]
    exact readText_sieve reader (sieve_dropCommas blank_isWhitespace) blank_isWhitespace spelled
  have kept : (∀ body, .string body ∈ doc.tokens → NoClosingComma body) →
    fromStr (stripJsonc text) = doc.value reader := by
    intro open_
    rw [stripped, Doc.rewrite_eq_self fun body member => (stripTrailingCommas_eq_self_iff body).mpr (open_ body member)]
  refine ⟨kept, fun distinct value before => ⟨fun after body member => ?_, fun open_ => (kept open_).trans before⟩⟩
  exact (stripTrailingCommas_eq_self_iff body).mp
    (Doc.fixed_of_valueAt sharp_dropCommas doc reader.depth value distinct before
      (stripped.symm.trans after) body member)

end Reading

section Example

/-- The text `["x,y",/*z*/]`. -/
def listText : Text := ['[', '"', 'x', ',', 'y', '"', ',', '/', '*', 'z', '*', '/', ']']

/-- A list with a comment and a trailing comma. -/
theorem strip_jsonc_keeps_list :
    readText wordReader (stripJsonc listText) = some (.array [.string ['x', ',', 'y']]) := by
  have spelled : commentedDoc listText = some (.array [.string ['x', ',', 'y']]) := rfl
  refine ((strip_jsonc_keeps_value_iff wordReader (readText wordReader) (fun _ => rfl) spelled).1 fun body member =>
    ?_).trans rfl
  obtain rfl : body = ['x', ',', 'y'] := by simpa [Doc.tokens, Doc.itemTokens, Doc.moreItems] using member
  exact (stripTrailingCommas_eq_self_iff _).mp (by decide)

/-- The text `{"a":"x,}"}`. -/
def closingText : Text := ['{', '"', 'a', '"', ':', '"', 'x', ',', '}', '"', '}']

/-- The string of this document loses its comma, although the text has neither comments nor trailing commas. -/
theorem strip_jsonc_drops_comma_in_string :
    readText wordReader closingText = some (.object [(['a'], .string ['x', ',', '}'])]) ∧
    readText wordReader (stripJsonc closingText) = some (.object [(['a'], .string ['x', '}'])]) ∧
    readText wordReader (stripJsonc closingText) ≠ readText wordReader closingText := by
  have before : readText wordReader closingText = some (.object [(['a'], .string ['x', ',', '}'])]) := rfl
  have after : readText wordReader (stripJsonc closingText) = some (.object [(['a'], .string ['x', '}'])]) := rfl
  refine ⟨before, after, fun same => ?_⟩
  cases before.symm.trans (same.symm.trans after)

end Example

end Codegraph.Resolve.Jsonc
