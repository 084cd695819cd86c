import Codegraph.Resolve.CommentScanners
import Mathlib.Data.List.DropRight

/- This file blanks the contents of string literals character by character. -/

namespace Codegraph.Resolve.StripComments
open Scanning

section RegexStart

def isAsciiAlphanumeric (c : Char) : Bool :=
  ('0' ≤ c && c ≤ '9') || ('A' ≤ c && c ≤ 'Z') || ('a' ≤ c && c ≤ 'z')

def regexKeywords : List String :=
  ["return", "throw", "case", "yield", "await", "else", "do", "typeof", "void", "delete", "new", "in", "of",
    "instanceof"]

/-- A slash opens a regex literal behind the start of an expression, which is looked for in the 32 characters before
it. -/
def regexLiteralMayStart (before : List Char) : Bool :=
  let window := before.drop (before.length - 32)
  let trimmed := window.rdropWhile isWhitespace
  match trimmed.getLast? with
  | none => true
  | some last =>
    if "=(:,)!&|?;{}[]+*%~^<>-".toList.contains last then true
    else regexKeywords.any fun keyword =>
      keyword.toList.isSuffixOf trimmed &&
        !(trimmed.take (trimmed.length - keyword.toList.length)).getLast?.any fun ch => isAsciiAlphanumeric ch ||
          ch = '_'

end RegexStart

section Parts

/-- A regex literal ends on its line at a slash outside of a class. The state tells whether a class is open. -/
def regexStep (inClass : Bool) (c : Char) (_ : Option Char) : Advance Bool :=
  if c = '\n' then .stop
  else if c = '\\' then .two inClass
  else if c = '[' then .one true
  else if c = ']' then .one false
  else if c = '/' ∧ !inClass then .stop
  else .one inClass

/-- How far the rest of a regex literal reaches, when its closing slash is there. -/
def regexLength (rest : List Char) : Option Nat :=
  let length := advance regexStep false rest
  if rest[length]? = some '/' then some (length + 1) else none

def isQuote (c : Char) : Bool := c = '"' || c = '\'' || c = '`'

/-- Only a template goes on behind a line break. -/
abbrev quoteStep (quote : Char) : Unit → Char → Option Char → Advance Unit := literalStep quote (quote = '`')

def contentLength (quote : Char) (rest : List Char) : Nat := advance (quoteStep quote) () rest

/-- What is written for the content of a literal. An escape becomes two spaces. -/
def blankContent : List Char → List Char
  | [] => []
  | [c] => [if c = '\n' then '\n' else ' ']
  | c :: d :: rest =>
    if c = '\\' then ' ' :: ' ' :: blankContent rest
    else (if c = '\n' then '\n' else ' ') :: blankContent (d :: rest)

/-- The text before the character decides whether a slash opens a regex literal. -/
def stringReader : Reader (List Char) := fun before c rest =>
  match if c = '/' ∧ regexLiteralMayStart before then regexLength rest else none with
  | some length => .keep length c rest (before ++ c :: rest.take length)
  | none =>
    if isQuote c then
      let length := literalLength c (c = '`') rest
      let content := rest.take (contentLength c rest)
      ⟨length, c :: (blankContent content ++ (rest.take length).drop (contentLength c rest)),
        before ++ c :: rest.take length⟩
    else .keep 0 c rest (before ++ [c])

def blankStringContentsChars (text : List Char) : List Char := scan stringReader [] text

end Parts

section Escapes

variable {before rest text content : List Char} {c : Char}

/-- A line break stands behind a backslash that is not escaped itself. -/
def escapesNewline : List Char → Bool
  | [] => false
  | [_] => false
  | c :: d :: rest => if c = '\\' then d = '\n' || escapesNewline rest else escapesNewline (d :: rest)

theorem blankContent_length (content : List Char) : (blankContent content).length = content.length := by
  induction content using blankContent.induct with
  | case1 => rfl
  | case2 => rfl
  | case3 d rest ih => simp [blankContent, ih]
  | case4 c d rest other ih => simp [blankContent, other, ih]

theorem masks_cons_iff {d : Char} {out : List Char} :
    Masks (c :: text) (d :: out) ↔ (d = c ∨ d = ' ' ∧ c ≠ '\n') ∧ Masks text out := List.forall₂_cons

theorem blank_char (c : Char) :
    (if c = '\n' then '\n' else ' ') = c ∨ (if c = '\n' then '\n' else ' ') = ' ' ∧ c ≠ '\n' := by
  split
  · exact .inl (.symm ‹_›)
  · exact .inr ⟨rfl, ‹_›⟩

/-- Blanking the content of a literal loses exactly the escaped line breaks. -/
theorem masks_blankContent_iff (content : List Char) :
    Masks content (blankContent content) ↔ escapesNewline content = false := by
  induction content using blankContent.induct with
  | case1 => exact iff_of_true (.refl []) rfl
  | case2 c => exact iff_of_true (masks_cons_iff.mpr ⟨blank_char c, .refl []⟩) rfl
  | case3 d rest ih =>
    rw [blankContent, if_pos rfl, masks_cons_iff, masks_cons_iff, ih, escapesNewline, if_pos rfl,
      Bool.or_eq_false_iff, decide_eq_false_iff_not, and_iff_right (.inr ⟨rfl, by decide⟩)]
    refine and_congr_left fun _ => ⟨?_, fun other => .inr ⟨rfl, other⟩⟩
    rintro (same | ⟨-, other⟩)
    · exact same ▸ by decide
    · exact other
  | case4 c d rest other ih =>
    rw [blankContent, if_neg other, masks_cons_iff, ih, escapesNewline, if_neg other, and_iff_right (blank_char c)]

/-- The content of the literal that starts here, if one does. -/
def literalContent (before : List Char) (c : Char) (rest : List Char) : Option (List Char) :=
  match if c = '/' ∧ regexLiteralMayStart before then regexLength rest else none with
  | some _ => none
  | none => if isQuote c then some (rest.take (contentLength c rest)) else none

/-- The contents of all literals of a text, as it is read. -/
def literalContents (before : List Char) : List Char → List (List Char)
  | [] => []
  | c :: rest =>
    let piece := stringReader before c rest
    (literalContent before c rest).toList ++ literalContents piece.next (rest.drop piece.length)
termination_by text => text.length
decreasing_by simp only [List.length_drop, List.length_cons]; omega

theorem contentLength_le (quote : Char) (rest : List Char) :
    contentLength quote rest ≤ literalLength quote (quote = '`') rest := by
  unfold literalLength
  dsimp only
  split
  · exact Nat.le_succ _
  · exact Nat.le_refl _

/-- A piece without a literal is kept. In a literal only the content changes. -/
theorem stringReader_cases (before : List Char) (c : Char) (rest : List Char) : (literalContent before c rest = none ∧
      (stringReader before c rest).written = c :: rest.take (stringReader before c rest).length) ∨
    ∃ content closing, literalContent before c rest = some content ∧
      rest.take (stringReader before c rest).length = content ++ closing ∧
      (stringReader before c rest).written = c :: (blankContent content ++ closing) := by
  unfold literalContent stringReader
  split
  · exact .inl ⟨rfl, rfl⟩
  · split
    · refine .inr ⟨_, _, rfl, ?_, rfl⟩
      have split := List.take_append_drop (contentLength c rest) (rest.take (literalLength c (c = '`') rest))
      rw [List.take_take, Nat.min_eq_left (contentLength_le c rest)] at split
      exact split.symm
    · exact .inl ⟨rfl, rfl⟩

theorem stringReader_length (before : List Char) (c : Char) (rest : List Char) :
    (stringReader before c rest).written.length = (c :: rest.take (stringReader before c rest).length).length := by
  rcases stringReader_cases before c rest with ⟨-, kept⟩ | ⟨content, closing, -, taken, written⟩
  · rw [kept]
  · rw [written, taken, List.length_cons, List.length_cons, List.length_append, List.length_append, blankContent_length]

theorem stringReader_masks_iff (before : List Char) (c : Char) (rest : List Char) :
    Masks (c :: rest.take (stringReader before c rest).length) (stringReader before c rest).written ↔
      ∀ content ∈ literalContent before c rest, escapesNewline content = false := by
  rcases stringReader_cases before c rest with ⟨none, kept⟩ | ⟨content, closing, some, taken, written⟩
  · rw [kept, none]
    exact iff_of_true (.refl _) (by simp)
  · rw [written, taken, some, masks_cons_iff, and_iff_right (.inl rfl), masks_append_iff (blankContent_length content),
      and_iff_left (.refl closing), masks_blankContent_iff]
    simp

/-- The blanked text masks the text exactly when no literal in it escapes a line break. -/
theorem masks_stringReader_iff (before text : List Char) : Masks text (scan stringReader before text) ↔
      ∀ content ∈ literalContents before text, escapesNewline content = false := by
  induction size : text.length using Nat.strongRecOn generalizing before text with
  | ind _ ih =>
    cases text with
    | nil => simp [literalContents, Masks.refl]
    | cons c rest =>
      rw [scan_cons, literalContents, cons_split c rest (stringReader before c rest).length,
        masks_append_iff (stringReader_length before c rest), stringReader_masks_iff,
        ih _ (size ▸ drop_shorter rest _) _ _ rfl, List.forall_mem_append]
      simp

end Escapes

end Codegraph.Resolve.StripComments
