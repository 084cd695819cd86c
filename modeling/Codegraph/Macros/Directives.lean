import Codegraph.Library.Repainting
import Codegraph.Macros.Conditions

/- This file reads the directives of a C or C++ file, line by line. -/

namespace Codegraph.Macros
open List
open Watch.Scope (Text)
open Repainting (isBreak)
open Scanning (isWhitespace)
open Cpp.CodeClasses (isAsciiWhitespace)
open Cpp.Flattening (isWord trim behindClosing behindClosing_shorter)

inductive BranchOp where
  | if_ | ifdef | ifndef | elif | else_ | endif
  deriving DecidableEq

/-- A directive of a file with its line. -/
inductive FileEvent where
  | define (name : Text) (line : Nat) (functionLike : Bool) (value : Text) (wrapsItself : Bool)
  | undef (name : Text) (line : Nat)
  | inclusion (quote : Char) (spec : Text) (line : Nat)
  | branch (op : BranchOp) (expression : Text) (guard : Bool) (line : Nat)
  | once (line : Nat)
  deriving DecidableEq

def FileEvent.line : FileEvent → Nat
  | define _ line _ _ _ => line
  | undef _ line => line
  | inclusion _ _ line => line
  | branch _ _ _ line => line
  | once line => line

section RawStrings

/-- The delimiter of a raw string, of at most sixteen bytes, and the text behind its parenthesis. -/
def delimiterFrom : Nat → Text → Option (Text × Text)
  | _, [] => none
  | used, c :: rest =>
    if used > 16 then none
    else if c = '(' then some ([], rest)
    else if c = ')' ∨ c = '\\' ∨ c = '\x0b' ∨ isAsciiWhitespace c then none
    else (delimiterFrom (used + c.utf8Size) rest).map fun found => (c :: found.1, found.2)

/-- The delimiter of a raw string literal that starts here, and its body with all that is behind. -/
def rawStringOpen (text : Text) : Option (Text × Text) :=
  (["u8R\"", "LR\"", "uR\"", "UR\"", "R\""].find? fun opener => opener.toList.isPrefixOf text).bind fun opener =>
    delimiterFrom 0 (text.drop opener.length)

/-- The text behind the first closer. -/
def behindCloser (closer : Text) : Text → Text
  | [] => []
  | c :: rest => if closer.isPrefixOf (c :: rest) then (c :: rest).drop closer.length else behindCloser closer rest

def blankChar (c : Char) : Text := if c = '\n' ∨ c = '\r' then [c] else List.replicate c.utf8Size ' '

/-- What is read of a text before the rest. -/
def readOf (text rest : Text) : Text := text.take (text.length - rest.length)

theorem delimiterFrom_le {used : Nat} {text delimiter body : Text}
    (found : delimiterFrom used text = some (delimiter, body)) : body.length < text.length := by
  induction text generalizing used delimiter with
  | nil => cases found
  | cons c text ih =>
    rw [delimiterFrom] at found
    split_ifs at found
    · cases found
      exact Nat.lt_succ_self _
    · obtain ⟨inner, deeper, same⟩ := Option.map_eq_some_iff.mp found
      cases same
      exact Nat.lt_succ_of_lt (ih deeper)

theorem behindCloser_le (closer text : Text) : (behindCloser closer text).length ≤ text.length := by
  induction text with
  | nil => exact Nat.le_refl _
  | cons c text ih =>
    rw [behindCloser]
    split
    · exact (drop_suffix _ _).length_le
    · exact Nat.le_succ_of_le ih

theorem rawStringOpen_le {text delimiter body : Text} (found : rawStringOpen text = some (delimiter, body)) :
    body.length < text.length := by
  obtain ⟨opener, -, found⟩ := Option.bind_eq_some_iff.mp found
  exact Nat.lt_of_lt_of_le (delimiterFrom_le found) (drop_suffix _ _).length_le

/-- Raw string literals as spaces. A literal opens only where no word goes on. -/
def maskFrom (boundary : Bool) (text : Text) : Text :=
  match text with
  | [] => []
  | c :: rest =>
    match _ : if boundary then rawStringOpen (c :: rest) else none with
    | some (delimiter, body) =>
      let behind := behindCloser (')' :: (delimiter ++ ['"'])) body
      (readOf (c :: rest) behind).flatMap blankChar ++ maskFrom true behind
    | none =>
      if c = '/' ∧ rest.head? = some '/' then
        (c :: rest.takeWhile fun d => !isBreak d) ++ maskFrom true (rest.dropWhile fun d => !isBreak d)
      else if c = '/' ∧ rest.head? = some '*' then
        match _ : behindClosing rest.tail with
        | some behind => readOf (c :: rest) behind ++ maskFrom true behind
        | none => c :: rest
      else if c = '"' ∨ c = '\'' ∧ boundary then
        readOf (c :: rest) (behindLiteral c rest) ++ maskFrom true (behindLiteral c rest)
      else c :: maskFrom (!isWord c) rest
termination_by text.length
decreasing_by
  · have shorter := rawStringOpen_le (Option.ite_none_right_eq_some.mp ‹_›).2
    exact Nat.lt_of_le_of_lt (behindCloser_le _ _) shorter
  · exact Nat.lt_succ_of_le (List.dropWhile_suffix _).length_le
  · have shorter := behindClosing_shorter ‹_›
    rw [List.length_tail] at shorter
    rw [List.length_cons]
    omega
  · exact Nat.lt_succ_of_le (behindLiteral_le _ _)
  · exact Nat.lt_succ_self _

def maskCppRawStrings (source : Text) : Text :=
  if source.tails.any "R\"".toList.isPrefixOf then maskFrom true source else source

end RawStrings

section Lines

def withoutReturn (line : Text) : Text := if line.getLast? = some '\r' then line.dropLast else line

/-- Some lines, and the one that the next line is joined to. -/
structure Spliced where
  lines : List Text := []
  joined : Option Nat := none

/-- A joined line goes to the line that started it, and leaves an empty line behind. -/
def Spliced.push (spliced : Spliced) (raw : Text) : Spliced :=
  let line := withoutReturn raw
  let continues := decide (line.getLast? = some '\\')
  let text := if continues then line.dropLast else line
  let lines := match spliced.joined with
    | some at_ => spliced.lines.modify at_ (· ++ text) ++ [[]]
    | none => spliced.lines ++ [text]
  ⟨lines, if continues then spliced.joined.or (some (lines.length - 1)) else none⟩

/-- The lines with every backslash before a line break taken out. -/
def spliceContinuations (source : Text) : List Text := ((source.splitOn '\n').foldl Spliced.push {}).lines

/-- What is read of a line: the text kept before a comment, the text without its closed comments, and whether a block
comment is open. -/
structure LineScan where
  kept : Option Text
  text : Text
  inBlock : Bool

/-- A line behind its first characters. A closed block comment becomes one space. -/
def scanLine (quote : Option Char) (before text : Text) : LineScan :=
  match text with
  | [] => ⟨none, before, false⟩
  | c :: rest =>
    match quote with
    | some q =>
      if c = '\\' then scanLine quote (before ++ c :: rest.take 1) rest.tail
      else scanLine (if c = q then none else quote) (before ++ [c]) rest
    | none =>
      if c = '"' ∨ c = '\'' then scanLine (some c) (before ++ [c]) rest
      else if c = '/' ∧ rest.head? = some '/' then ⟨some before, before ++ c :: rest, false⟩
      else if c = '/' ∧ rest.head? = some '*' then
        match _ : behindClosing rest.tail with
        | some behind => scanLine none (before ++ [' ']) behind
        | none => ⟨some before, before ++ c :: rest, true⟩
      else scanLine none (before ++ [c]) rest
termination_by text.length
decreasing_by
  · rw [List.length_tail, List.length_cons]
    omega
  · exact Nat.lt_succ_self _
  · exact Nat.lt_succ_self _
  · have shorter := behindClosing_shorter ‹_›
    rw [List.length_tail] at shorter
    rw [List.length_cons]
    omega
  · exact Nat.lt_succ_self _

def startsDirective (text : Text) : Bool := (text.dropWhile isWhitespace).head? = some '#'

/-- What is read of a line, and whether a block comment is open behind it. -/
def directiveLine (inBlock : Bool) (line : Text) : Text × Bool :=
  let raw := withoutReturn line
  match if inBlock then behindClosing raw else some raw with
  | none => ([], true)
  | some text =>
    let scan := scanLine none [] text
    (if startsDirective text then (scan.kept.filter (· ≠ [])).getD scan.text else raw, scan.inBlock)

def directiveLinesFrom : Bool → List Text → List Text
  | _, [] => []
  | inBlock, line :: rest => (directiveLine inBlock line).1 :: directiveLinesFrom (directiveLine inBlock line).2 rest

def directiveLines (source : Text) : List Text :=
  directiveLinesFrom false (spliceContinuations (maskCppRawStrings source))

/-- Whether a line holds code, and whether a block comment is open behind it. -/
def lineCode (inBlock : Bool) (quote : Option Char) (text : Text) : Bool × Bool :=
  match text with
  | [] => (false, inBlock)
  | c :: rest =>
    if inBlock then
      match _ : behindClosing (c :: rest) with
      | some behind => lineCode false quote behind
      | none => (false, true)
    else match quote with
      | some q =>
        if c = '\\' then lineCode false quote rest.tail else lineCode false (if c = q then none else quote) rest
      | none =>
        if c = '/' ∧ rest.head? = some '/' then (false, false)
        else if c = '/' ∧ rest.head? = some '*' then lineCode true none rest.tail
        else if c = '"' ∨ c = '\'' then (true, (lineCode false (some c) rest).2)
        else ((lineCode false none rest).1 || !isAsciiWhitespace c, (lineCode false none rest).2)
termination_by text.length
decreasing_by
  · exact behindClosing_shorter ‹_›
  · rw [List.length_tail, List.length_cons]
    omega
  · exact Nat.lt_succ_self _
  · rw [List.length_tail, List.length_cons]
    omega
  · exact Nat.lt_succ_self _
  · exact Nat.lt_succ_self _

def codeFlagsFrom : Bool → List Text → List Bool
  | _, [] => []
  | inBlock, line :: rest =>
    let read := lineCode inBlock none (withoutReturn line)
    read.1 :: codeFlagsFrom read.2 rest

/-- Whether there is code on each line. -/
def codeLineFlags (source : Text) : List Bool := codeFlagsFrom false (spliceContinuations (maskCppRawStrings source))

end Lines

section Patterns

/-- A text behind a number sign at its start. -/
def behindSign (text : Text) : Option Text :=
  match text.dropWhile isWhitespace with
  | '#' :: rest => some (rest.dropWhile isWhitespace)
  | _ => none

/-- A text behind some characters. -/
def behindWord (word : String) (text : Text) : Option Text :=
  if word.toList.isPrefixOf text then some (text.drop word.length) else none

variable (wideWord : Char → Bool)

/-- No word goes on here. Characters of more than one byte may belong to words. -/
def wordEnds (rest : Text) : Bool := rest.head?.all fun c => !(isWord c || (128 ≤ c.toNat && wideWord c))

/-- The operation of a branch, and its expression. -/
def branchOf (text : Text) : Option (BranchOp × Text) := do
  let rest ← behindSign text
  [("ifdef", BranchOp.ifdef), ("ifndef", .ifndef), ("if", .if_), ("elif", .elif), ("else", .else_),
    ("endif", .endif)].findSome?
    fun (word, op) => (behindWord word rest).bind fun behind => if wordEnds wideWord behind then some (op, behind)
      else none

/-- A `#define` or an `#undef`, its name, whether a parenthesis follows, and the text behind. -/
structure NameDirective where
  defines : Bool
  name : Text
  behindName : Text

def NameDirective.functionLike (directive : NameDirective) : Bool := directive.behindName.head? = some '('

def NameDirective.value (directive : NameDirective) : Text :=
  if directive.functionLike then directive.behindName.tail else directive.behindName

def defineOrUndef (text : Text) : Option NameDirective := do
  let rest ← behindSign text
  let (defines, behind) ← [("define", true), ("undef", false)].findSome? fun (word, defines) =>
    (behindWord word rest).map fun behind => (defines, behind)
  let body := behind.dropWhile isWhitespace
  let name := body.takeWhile isWord
  if behind.head?.any isWhitespace ∧ name ≠ [] then some ⟨defines, name, body.dropWhile isWord⟩ else none

def isClose (c : Char) : Bool := c = '>' || c = '"'

/-- The quote of an `#include`, and what it names. -/
def includeOf (text : Text) : Option (Char × Text) := do
  let rest ← behindSign text
  let behind ← behindWord "include" rest
  match behind.dropWhile isWhitespace with
  | quote :: named =>
    let spec := named.takeWhile fun c => !isClose c
    if (quote = '<' ∨ quote = '"') ∧ spec ≠ [] ∧ spec.length < named.length then some (quote, spec) else none
  | [] => none

def isPragmaOnce (text : Text) : Bool :=
  ((behindSign text).bind (behindWord "pragma")).any fun behind =>
    behind.head?.any isWhitespace && (behindWord "once" (behind.dropWhile isWhitespace)).any (wordEnds wideWord)

/-- The name whose absence an expression tests. -/
def notDefinedGuard (expression : Text) : Option Text := do
  let rest ← behindWord "!" (expression.dropWhile isWhitespace)
  let behind ← behindWord "defined" (rest.dropWhile isWhitespace)
  match behind.dropWhile isWhitespace with
  | '(' :: inner =>
    let name := (inner.dropWhile isWhitespace).takeWhile isWord
    match ((inner.dropWhile isWhitespace).dropWhile isWord).dropWhile isWhitespace with
    | ')' :: tail => if name ≠ [] ∧ tail.all isWhitespace then some name else none
    | _ => none
  | bare =>
    if bare.takeWhile isWord ≠ [] ∧ (bare.dropWhile isWord).all isWhitespace then some (bare.takeWhile isWord)
      else none

end Patterns

section Guards

variable (wideWord : Char → Bool) (lines : List Text) (code : List Bool)

/-- Behind the test of a guard: its `#endif` closes the file. -/
def closesFile : Nat → List Text → List Bool → Bool
  | _, [], _ => false
  | depth, text :: rest, flags =>
    match branchOf wideWord text with
    | none => closesFile depth rest flags.tail
    | some (op, _) =>
      match op, depth with
      | .if_, depth | .ifdef, depth | .ifndef, depth => closesFile (depth + 1) rest flags.tail
      | .else_, 0 | .elif, 0 => false
      | .endif, 0 => !flags.tail.any id
      | .endif, depth + 1 => closesFile depth rest flags.tail
      | .else_, depth + 1 | .elif, depth + 1 => closesFile (depth + 1) rest flags.tail

/-- A test is the include guard of the whole file. -/
def guardsItself (index : Nat) (op : BranchOp) (expression : Text) : Bool :=
  let name := match op with
    | .ifndef => trim expression
    | .if_ => (notDefinedGuard expression).getD []
    | _ => []
  if name = [] ∨ !name.all isWord ∨ (code.take index).any id then false
  else match ((lines.drop (index + 1)).find? startsDirective).bind defineOrUndef with
    | some directive =>
      directive.defines && directive.name = name && (trim directive.behindName).isEmpty &&
        closesFile wideWord 0 (lines.drop (index + 1)) (code.drop (index + 1))
    | none => false

/-- A line with the lines it is continued on. -/
def continuedText : List Text → Text
  | [] => []
  | [line] => line
  | line :: next :: rest =>
    if (line.rdropWhile isWhitespace).getLast? = some '\\' then line ++ ' ' :: continuedText (next :: rest) else line

/-- A name is called at a place of a text, directly or in parentheses. -/
def callsAt (name body : Text) (start : Nat) : Bool :=
  let after := (body.drop (start + name.length)).dropWhile isWhitespace
  name.isPrefixOf (body.drop start) && !(body.take start).getLast?.any isWord &&
    !(body.drop (start + name.length)).head?.any isWord &&
    (after.head? = some '(' ||
      ((body.take start).rdropWhile isWhitespace).getLast? = some '(' && after.head? = some ')' &&
        (after.tail.dropWhile isWhitespace).head? = some '(')

/-- The body of a macro calls the macro's name. -/
def callsItself (index : Nat) (name : Text) : Bool :=
  match (continuedText (lines.drop index)).dropWhile (fun c => c ≠ '(') with
  | [] => false
  | _ :: body => (List.range body.length).any (callsAt name body)

end Guards

section Summary

variable (wideWord : Char → Bool) (lines : List Text) (code : List Bool)

/-- The directives that a line holds. -/
def lineEvents (index : Nat) (text : Text) : List FileEvent :=
  match branchOf wideWord text with
  | some (op, expression) => [.branch op expression (guardsItself wideWord lines code index op expression) (index + 1)]
  | none =>
    match defineOrUndef text with
    | some directive =>
      if directive.defines then
        [.define directive.name (index + 1) directive.functionLike directive.value
          (directive.functionLike && callsItself lines index directive.name)]
      else [.undef directive.name (index + 1)]
    | none =>
      ((includeOf text).map fun (quote, spec) => .inclusion quote spec (index + 1)).toList ++
        if isPragmaOnce wideWord text then [.once (index + 1)] else []

/-- The directives of a file in the order of its lines. -/
def summarize (source : Text) : List FileEvent :=
  (directiveLines source).zipIdx.flatMap fun (text, index) =>
    lineEvents wideWord (directiveLines source) (codeLineFlags source) index text

theorem line_of_mem_lineEvents {index : Nat} {text : Text} {event : FileEvent}
    (found : event ∈ lineEvents wideWord lines code index text) : event.line = index + 1 := by
  unfold lineEvents at found
  split at found
  · rw [mem_singleton.mp found]
    rfl
  · split at found
    · split at found
      all_goals
        rw [mem_singleton.mp found]
        rfl
    · rcases mem_append.mp found with inclusion | once
      · obtain ⟨-, -, rfl⟩ := Option.map_eq_some_iff.mp (Option.mem_toList.mp inclusion)
        rfl
      · split at once
        · rw [mem_singleton.mp once]
          rfl
        · cases once

/-- The directives of a file stand in the order of their lines. -/
theorem summarize_sorted (source : Text) :
    (summarize wideWord source).Pairwise fun event later => event.line ≤ later.line := by
  unfold summarize
  refine pairwise_flatMap.mpr ⟨fun entry _ => ?_, ?_⟩
  · refine pairwise_iff_forall_sublist.mpr fun {event later} both => ?_
    have first := line_of_mem_lineEvents wideWord _ _ (both.subset (mem_cons_self ..))
    have second := line_of_mem_lineEvents wideWord _ _ (both.subset (mem_cons_of_mem _ (mem_cons_self ..)))
    rw [first, second]
  · have indices : (directiveLines source).zipIdx.Pairwise fun entry later => entry.2 < later.2 := by
      rw [← pairwise_map, zipIdx_map_snd]
      exact pairwise_lt_range'
    refine indices.imp fun {entry later} before event first event' second => ?_
    rw [line_of_mem_lineEvents wideWord _ _ first, line_of_mem_lineEvents wideWord _ _ second]
    exact Nat.succ_le_succ (Nat.le_of_lt before)

end Summary

end Codegraph.Macros
