import Codegraph.Cpp.CodeClasses
import Codegraph.Cpp.NestedIntervals
import Codegraph.Library.Brackets
import Codegraph.Library.Utf8Loops

/- This file reads the braces and the named namespaces of a C++ source from its bytes. -/

namespace Codegraph.Cpp.BraceScopes
open Utf8
open CodeClasses (byteAt isAsciiDigit)

section Bytes

def isBlank (c : Char) : Bool := c = ' ' || c = '\t' || c = '\r' || c = '\x0c' || c = '\x0b'

def isAsciiAlphabetic (c : Char) : Bool := ('A' ≤ c && c ≤ 'Z') || ('a' ≤ c && c ≤ 'z')

def isWordStart (c : Char) : Bool := isAsciiAlphabetic c || c = '_' || c = '$' || '\x80' ≤ c

def isWordChar (c : Char) : Bool := isWordStart c || isAsciiDigit c

def isRawStringPrefix (text : List Char) : Bool :=
  text = ['R'] || text = ['u', '8', 'R'] || text = ['u', 'R'] || text = ['U', 'R'] || text = ['L', 'R']

def isRawStringDelimiter (text : List Char) : Bool :=
  text.length ≤ 16 && text.all fun c => '!' ≤ c && c ≤ '~' && !(c = '"' || c = '(' || c = ')' || c = '\\')

variable (source : List Char)

def bytesBetween (start stop : Nat) : List Char := (source.take stop).drop start

def startsAt (at_ : Nat) (needle : List Char) : Bool := needle.isPrefixOf (source.drop at_)

def position (needle : List Char) : List Char → Option Nat
  | [] => none
  | c :: rest => if needle.isPrefixOf (c :: rest) then some 0 else (position needle rest).map (· + 1)

/-- Where the needle next occurs. -/
def find (start : Nat) (needle : List Char) : Option Nat :=
  if start ≥ source.length then none else (position needle (source.drop start)).map (start + ·)

variable {source} {start at_ stop : Nat} {needle : List Char}

theorem position_lt {text : List Char} (found : position needle text = some at_) : at_ < text.length := by
  induction text generalizing at_ with
  | nil => cases found
  | cons c rest ih =>
    rw [position] at found
    split at found
    · obtain rfl := Option.some.inj found
      exact Nat.zero_lt_succ _
    · obtain ⟨later, same, rfl⟩ := Option.map_eq_some_iff.mp found
      exact Nat.succ_lt_succ (ih same)

theorem find_bounds (found : find source start needle = some at_) : start ≤ at_ ∧ at_ < source.length := by
  rw [find] at found
  split at found
  · cases found
  · obtain ⟨later, same, rfl⟩ := Option.map_eq_some_iff.mp found
    have inside := position_lt same
    rw [List.length_drop] at inside
    omega

end Bytes

section Parts

variable (source : List Char)

/-- A line comment goes on behind a line break that a backslash escapes. -/
def lineCommentEnd (at_ : Nat) : Nat :=
  match _ : find source at_ ['\n'] with
  | none => source.length
  | some newline =>
    let k := if newline > 0 ∧ byteAt source (newline - 1) = '\r' then newline - 1 else newline
    if k = 0 ∨ byteAt source (k - 1) ≠ '\\' then newline else lineCommentEnd (newline + 1)
termination_by source.length - at_
decreasing_by
  have bounds := find_bounds ‹_›
  omega

def blockCommentEnd (at_ : Nat) : Nat :=
  match find source (at_ + 2) ['*', '/'] with
  | none => source.length
  | some stop => stop + 2

variable {source}

theorem le_lineCommentEnd (at_ : Nat) : min at_ source.length ≤ lineCommentEnd source at_ := by
  fun_induction lineCommentEnd source at_ with
  | case1 => exact Nat.min_le_right _ _
  | case2 at_ newline found =>
    have bounds := find_bounds found
    omega
  | case3 at_ newline found k goes ih =>
    have bounds := find_bounds found
    omega

theorem lt_blockCommentEnd {at_ : Nat} (inside : at_ < source.length) : at_ < blockCommentEnd source at_ := by
  rw [blockCommentEnd]
  split
  · exact inside
  · rename_i stop found
    have bounds := find_bounds found
    omega

theorem lt_lineCommentEnd {at_ : Nat} (inside : at_ < source.length) : at_ < lineCommentEnd source (at_ + 2) := by
  have least := @le_lineCommentEnd source (at_ + 2)
  omega

variable (source)

/-- Past white space and comments. -/
def skipBlank (at_ : Nat) : Nat :=
  if at_ < source.length then
    let c := byteAt source at_
    if isBlank c ∨ c = '\n' then skipBlank (at_ + 1)
    else if c = '/' ∧ byteAt source (at_ + 1) = '/' then skipBlank (lineCommentEnd source (at_ + 2))
    else if c = '/' ∧ byteAt source (at_ + 1) = '*' then skipBlank (blockCommentEnd source at_)
    else at_
  else at_
termination_by source.length - at_
decreasing_by
  · omega
  · have := @lt_lineCommentEnd source _ ‹_›
    omega
  · have := @lt_blockCommentEnd source _ ‹_›
    omega

def wordEnd (at_ : Nat) : Option Nat :=
  if isWordStart (byteAt source at_) then some (at_ + 1 + ((source.drop (at_ + 1)).takeWhile isWordChar).length)
    else none

def quotedFrom (quote : Char) (k : Nat) : Nat :=
  if k < source.length then
    let c := byteAt source k
    if c = '\\' then quotedFrom quote (k + if byteAt source (k + 1) = '\r' ∧ byteAt source (k + 2) = '\n' then 3 else 2)
    else if c = quote then k + 1
    else if c = '\n' then k
    else quotedFrom quote (k + 1)
  else source.length
termination_by source.length - k
decreasing_by
  · split <;> omega
  · omega

/-- Past the literal whose quote is here. It stops at a line break. -/
def quotedEnd (at_ : Nat) : Nat := quotedFrom source (byteAt source at_) (at_ + 1)

variable {source}

theorem le_skipBlank (at_ : Nat) : at_ ≤ skipBlank source at_ := by
  fun_induction skipBlank source at_ with
  | case1 => omega
  | case2 at_ inside _ _ _ ih =>
    have := lt_lineCommentEnd inside
    omega
  | case3 at_ inside _ _ _ _ ih =>
    have := lt_blockCommentEnd inside
    omega
  | case4 => omega
  | case5 => omega

theorem wordEnd_bounds {at_ stop : Nat} (found : wordEnd source at_ = some stop) :
    at_ < stop ∧ at_ < source.length := by
  rw [wordEnd] at found
  split at found
  · obtain rfl := Option.some.inj found
    refine ⟨by omega, ?_⟩
    by_contra outside
    rename_i word
    rw [byteAt, List.getElem?_eq_none (Nat.le_of_not_lt outside)] at word
    exact absurd word (by decide)
  · cases found

theorem le_quotedFrom (quote : Char) (k : Nat) : min k source.length ≤ quotedFrom source quote k := by
  fun_induction quotedFrom source quote k with
  | case1 k inside c escapes ih =>
    exact Nat.le_trans (by omega) ih
  | case2 => omega
  | case3 => omega
  | case4 => omega
  | case5 => omega

theorem lt_quotedEnd {at_ : Nat} (inside : at_ < source.length) : at_ < quotedEnd source at_ := by
  have least := @le_quotedFrom source (byteAt source at_) (at_ + 1)
  rw [quotedEnd]
  omega

variable (source)

/-- Past a group in parentheses, over the literals in it. -/
def parenGroupFrom (depth k : Nat) : Option Nat :=
  if k < source.length then
    let c := byteAt source k
    if c = '"' ∨ c = '\'' then parenGroupFrom depth (quotedEnd source k)
    else if c = '(' then parenGroupFrom (depth + 1) (k + 1)
    else if c = ')' then if depth - 1 = 0 then some (k + 1) else parenGroupFrom (depth - 1) (k + 1)
    else parenGroupFrom depth (k + 1)
  else none
termination_by source.length - k
decreasing_by
  · have := @lt_quotedEnd source _ ‹_›
    omega
  all_goals omega

def parenGroupEnd (at_ : Nat) : Option Nat := parenGroupFrom source 0 at_

variable {source}

theorem lt_parenGroupEnd {at_ stop : Nat} (found : parenGroupEnd source at_ = some stop) : at_ < stop := by
  rw [parenGroupEnd] at found
  generalize 0 = depth at found
  fun_induction parenGroupFrom source depth at_ with
  | case1 depth k inside _ _ ih =>
    have := lt_quotedEnd inside
    have := ih found
    omega
  | case2 depth k inside _ _ _ ih =>
    have := ih found
    omega
  | case3 =>
    obtain rfl := Option.some.inj found
    omega
  | case4 depth k inside _ _ _ _ _ ih =>
    have := ih found
    omega
  | case5 depth k inside _ _ _ _ ih =>
    have := ih found
    omega
  | case6 => cases found

end Parts

section Heads

variable (source : List Char)

/-- Past the attributes of a namespace. -/
def skipAttributes (at_ : Nat) : Option Nat :=
  if startsAt source at_ ['[', '['] then
    match _ : find source (at_ + 2) [']', ']'] with
    | none => none
    | some stop => skipAttributes (skipBlank source (stop + 2))
  else some at_
termination_by source.length - at_
decreasing_by
  have bounds := find_bounds ‹_›
  have blank := @le_skipBlank source (stop + 2)
  omega

/-- The parts of a namespace's name, and what stands behind it. -/
def readName (name : Option (Nat × Nat)) (at_ : Nat) : Option (Nat × Nat) × Nat :=
  match _ : wordEnd source at_ with
  | none => (name, at_)
  | some stop =>
    let name := some ((name.map Prod.fst).getD at_, stop)
    let behind := skipBlank source stop
    if startsAt source behind [':', ':'] then
      let next := skipBlank source (behind + 2)
      match _ : wordEnd source next with
      | some inline_ =>
        if bytesBetween source next inline_ = "inline".toList then readName name (skipBlank source inline_)
        else readName name next
      | none => readName name next
    else (name, behind)
termination_by source.length - at_
decreasing_by
  all_goals
    have bounds := @wordEnd_bounds source at_ _ ‹_›
    have first := @le_skipBlank source stop
    have second := @le_skipBlank source (skipBlank source stop + 2)
    try have third := @wordEnd_bounds source (skipBlank source (skipBlank source stop + 2)) _ ‹_›
    try have fourth := @le_skipBlank source inline_
    omega

/-- Past the macros with arguments behind a name. A word without arguments ends the reading. -/
def skipMacros (at_ : Nat) : Option Nat :=
  match _ : wordEnd source at_ with
  | none => some at_
  | some stop =>
    let paren := skipBlank source stop
    if byteAt source paren ≠ '(' then none
    else
      match _ : parenGroupEnd source paren with
      | none => none
      | some behind => skipMacros (skipBlank source behind)
termination_by source.length - at_
decreasing_by
  have bounds := @wordEnd_bounds source at_ _ ‹_›
  have first := @le_skipBlank source stop
  have second := @lt_parenGroupEnd source (skipBlank source stop) _ ‹_›
  have third := @le_skipBlank source behind
  omega

/-- The bytes of the name behind the keyword of a namespace, and the offset of the brace that opens its body. -/
def namespaceHead (start : Nat) : Option (List Char × Nat) := do
  let at_ ← skipAttributes source (skipBlank source start)
  let (name, at_) := readName source none at_
  let at_ ← if name.isSome then skipMacros source at_ else some at_
  if byteAt source at_ ≠ '{' then none
  else return ((name.map fun (start, stop) => bytesBetween source start stop).getD [], at_)

/-- A directive runs to the end of its line, through comments, strings and escaped line breaks. -/
def directiveEnd (k : Nat) : Nat :=
  if k < source.length then
    let d := byteAt source k
    if d = '\n' then
      let back := if k > 0 ∧ byteAt source (k - 1) = '\r' then k - 1 else k
      if back = 0 ∨ byteAt source (back - 1) ≠ '\\' then k else directiveEnd (k + 1)
    else if d = '/' ∧ byteAt source (k + 1) = '/' then directiveEnd (lineCommentEnd source (k + 2))
    else if d = '/' ∧ byteAt source (k + 1) = '*' then directiveEnd (blockCommentEnd source k)
    else if d = '"' then directiveEnd (quotedEnd source k)
    else directiveEnd (k + 1)
  else k
termination_by source.length - k
decreasing_by
  · omega
  · have := @lt_lineCommentEnd source _ ‹_›
    omega
  · have := @lt_blockCommentEnd source _ ‹_›
    omega
  · have := @lt_quotedEnd source _ ‹_›
    omega
  · omega

/-- A number goes on through digit separators and the signs of exponents. -/
def numberEnd (k : Nat) : Nat :=
  if k < source.length then
    let d := byteAt source k
    if isWordChar d ∨ d = '.' then numberEnd (k + 1)
    else if d = '\'' ∧ isWordChar (byteAt source (k + 1)) then numberEnd (k + 2)
    else if (d = '+' ∨ d = '-') ∧ ['e', 'E', 'p', 'P'].contains (byteAt source (k - 1)) then numberEnd (k + 1)
    else k
  else k
termination_by source.length - k

/-- Past the raw string whose quote is here, when the word before it makes it one. -/
def rawStringEnd (word : Option (Nat × Nat)) (at_ : Nat) : Option Nat := do
  let (start, stop) ← word
  if stop = at_ ∧ at_ - start ≤ 3 ∧ isRawStringPrefix (bytesBetween source start at_) then
    let paren ← find source (at_ + 1) ['(']
    let delimiter := bytesBetween source (at_ + 1) paren
    if isRawStringDelimiter delimiter then
      match find source (paren + 1) (')' :: (delimiter ++ ['"'])) with
      | none => some source.length
      | some stop => some (stop + delimiter.length + 2)
    else none
  else none

variable {source}

theorem le_directiveEnd (k : Nat) : k ≤ directiveEnd source k := by
  fun_induction directiveEnd source k with
  | case1 => omega
  | case2 => omega
  | case3 k inside _ _ _ ih =>
    have := lt_lineCommentEnd inside
    omega
  | case4 k inside _ _ _ _ ih =>
    have := lt_blockCommentEnd inside
    omega
  | case5 k inside _ _ _ _ _ ih =>
    have := lt_quotedEnd inside
    omega
  | case6 => omega
  | case7 => omega

theorem le_numberEnd (k : Nat) : k ≤ numberEnd source k := by
  fun_induction numberEnd source k <;> omega

theorem lt_rawStringEnd {word : Option (Nat × Nat)} {at_ stop : Nat} (inside : at_ < source.length)
    (found : rawStringEnd source word at_ = some stop) : at_ < stop := by
  simp only [rawStringEnd, Option.bind_eq_bind, Option.bind_eq_some_iff] at found
  obtain ⟨⟨first, last⟩, -, found⟩ := found
  split at found
  · obtain ⟨paren, opens, found⟩ := Option.bind_eq_some_iff.mp found
    have before := find_bounds opens
    split at found
    · split at found
      · exact Option.some.inj found ▸ inside
      · rename_i close closes
        have behind := find_bounds closes
        obtain rfl := Option.some.inj found
        omega
    · cases found
  · cases found

end Heads

section Tokens

/-- What the scan reads. A word matters only when it is the keyword of a namespace with a body. -/
inductive Token where
  | opening (at_ : Nat)
  | closing (at_ : Nat)
  | directive (name : List Char)
  | namespaceHead (name : List Char) (brace : Nat)
  deriving DecidableEq

/-- Where the scan stands, whether a directive may start there, and the last word or number. -/
structure Cursor where
  at_ : Nat
  lineStart : Bool := true
  word : Option (Nat × Nat) := none

variable (source : List Char)

def directiveName (at_ : Nat) : List Char :=
  let k := at_ + 1 + ((source.drop (at_ + 1)).takeWhile isBlank).length
  match wordEnd source k with
  | none => []
  | some stop => bytesBetween source k stop

def readToken (cursor : Cursor) : Option Token × Cursor :=
  let at_ := cursor.at_
  let c := byteAt source at_
  if c = '\n' then (none, { cursor with at_ := at_ + 1, lineStart := true })
  else if isBlank c then (none, { cursor with at_ := at_ + 1 })
  else if c = '/' ∧ byteAt source (at_ + 1) = '/' then (none, { cursor with at_ := lineCommentEnd source (at_ + 2) })
  else if c = '/' ∧ byteAt source (at_ + 1) = '*' then (none, { cursor with at_ := blockCommentEnd source at_ })
  else if c = '#' ∧ cursor.lineStart then
    (some (.directive (directiveName source at_)), { cursor with
      at_ := directiveEnd source (at_ + 1 + ((source.drop (at_ + 1)).takeWhile isBlank).length) })
  else if c = '"' then
    (none, { cursor with lineStart := false, at_ := (rawStringEnd source cursor.word at_).getD (quotedEnd source at_) })
  else if c = '\'' then (none, { cursor with lineStart := false, at_ := quotedEnd source at_ })
  else if isAsciiDigit c ∨ c = '.' ∧ isAsciiDigit (byteAt source (at_ + 1)) then
    let k := numberEnd source (at_ + 1)
    (none, { lineStart := false, word := some (at_, k), at_ := k })
  else if isWordStart c then
    let stop := (wordEnd source at_).getD (at_ + 1)
    let head := if bytesBetween source at_ stop = "namespace".toList then namespaceHead source stop else none
    (head.map fun (name, brace) => .namespaceHead name brace,
      { lineStart := false, word := some (at_, stop), at_ := stop })
  else if c = '{' then (some (.opening at_), { cursor with lineStart := false, at_ := at_ + 1 })
  else if c = '}' then (some (.closing at_), { cursor with lineStart := false, at_ := at_ + 1 })
  else (none, { cursor with lineStart := false, at_ := at_ + 1 })

variable {source} {cursor : Cursor}

/-- Every token takes the cursor forward. -/
theorem lt_readToken (inside : cursor.at_ < source.length) : cursor.at_ < (readToken source cursor).2.at_ := by
  fun_cases readToken source cursor with
  | case1 => exact Nat.lt_succ_self _
  | case2 => exact Nat.lt_succ_self _
  | case3 => exact lt_lineCommentEnd inside
  | case4 => exact lt_blockCommentEnd inside
  | case5 => exact Nat.lt_of_lt_of_le (by omega) (le_directiveEnd _)
  | case6 =>
    cases raw : rawStringEnd source cursor.word cursor.at_ with
    | none => exact lt_quotedEnd inside
    | some stop => exact lt_rawStringEnd inside raw
  | case7 => exact lt_quotedEnd inside
  | case8 => exact le_numberEnd (cursor.at_ + 1)
  | case9 =>
    show cursor.at_ < (wordEnd source cursor.at_).getD (cursor.at_ + 1)
    cases word : wordEnd source cursor.at_ with
    | none => exact Nat.lt_succ_self _
    | some stop => exact (wordEnd_bounds word).1
  | case10 => exact Nat.lt_succ_self _
  | case11 => exact Nat.lt_succ_self _
  | case12 => exact Nat.lt_succ_self _

end Tokens

section Scanning

/-- The braces that are open at an if, and those that are open behind its first branch once another one starts. -/
structure Branch where
  atIf : List Nat
  afterFirst : Option (List Nat) := none
  deriving DecidableEq

/-- The state of a scan. The last open brace and the last group come first in their lists. -/
structure Scan where
  closes : Nat → Option Nat := fun _ => none
  open_ : List Nat := []
  branches : List Branch := []
  namespaceAt : List (Nat × List Char) := []
  pendingNamespace : Option (List Char × Nat) := none
  balanced : Bool := true

variable (scan : Scan)

def Scan.readIf : Scan := { scan with branches := ⟨scan.open_, none⟩ :: scan.branches }

def Scan.readElse : Scan :=
  match scan.branches with
  | [] => scan
  | group :: outer => { scan with
      open_ := group.atIf
      branches := { group with afterFirst := some (group.afterFirst.getD scan.open_) } :: outer }

def Scan.readEndif : Scan :=
  match scan.branches with
  | [] => scan
  | group :: outer => { scan with open_ := group.afterFirst.getD scan.open_, branches := outer }

def isIf (name : List Char) : Bool := ["if".toList, "ifdef".toList, "ifndef".toList].contains name

def isElse (name : List Char) : Bool :=
  ["else".toList, "elif".toList, "elifdef".toList, "elifndef".toList].contains name

def isEndif (name : List Char) : Bool := name == "endif".toList

def Scan.readDirective (name : List Char) : Scan :=
  if isIf name then scan.readIf
  else if isElse name then scan.readElse
  else if isEndif name then scan.readEndif
  else scan

def Scan.readOpening (at_ : Nat) : Scan :=
  let scan := { scan with open_ := at_ :: scan.open_ }
  match scan.pendingNamespace with
  | none => scan
  | some (name, brace) =>
    if brace = at_ then { scan with
      namespaceAt := if name ≠ [] then scan.namespaceAt ++ [(at_, name)] else scan.namespaceAt
      pendingNamespace := none }
    else scan

/-- The first brace that is found to close another one stays its closing. -/
def Scan.readClosing (at_ : Nat) : Scan :=
  match scan.open_ with
  | [] => { scan with balanced := false }
  | start :: open_ => { scan with
      open_ := open_
      closes := Function.update scan.closes start ((scan.closes start).or (some at_)) }

def Scan.read : Token → Scan
  | .opening at_ => scan.readOpening at_
  | .closing at_ => scan.readClosing at_
  | .directive name => scan.readDirective name
  | .namespaceHead name brace => { scan with pendingNamespace := some (name, brace) }

/-- An opening brace goes on the stack. Otherwise only the namespaces change. -/
theorem Scan.readOpening_eq (at_ : Nat) : ∃ namespaceAt pendingNamespace, scan.readOpening at_ =
    { scan with open_ := at_ :: scan.open_, namespaceAt := namespaceAt, pendingNamespace := pendingNamespace } := by
  unfold readOpening
  dsimp only
  split
  · exact ⟨scan.namespaceAt, scan.pendingNamespace, rfl⟩
  · split
    · exact ⟨_, none, rfl⟩
    · exact ⟨scan.namespaceAt, scan.pendingNamespace, rfl⟩

/-- A closing brace closes the last open one, and an earlier closing of that one stays. -/
theorem Scan.closes_readClosing {scan : Scan} {start at_ : Nat} {rest : List Nat} (opened : scan.open_ = start :: rest)
    (open_ : Nat) : (scan.readClosing at_).closes open_ =
      if open_ = start then (scan.closes start).or (some at_) else scan.closes open_ := by
  simp only [readClosing, opened, Function.update_apply]

theorem Scan.opened_of_readClosing {scan : Scan} {at_ : Nat} (balanced : (scan.readClosing at_).balanced) :
    ∃ start rest, scan.open_ = start :: rest := by
  cases opened : scan.open_ with
  | nil => simp [readClosing, opened] at balanced
  | cons start rest => exact ⟨start, rest, rfl⟩

theorem Scan.closes_readDirective (name : List Char) :
    (scan.readDirective name).closes = scan.closes ∧ (scan.readDirective name).balanced = scan.balanced := by
  unfold readDirective readIf readElse readEndif
  split
  · exact ⟨rfl, rfl⟩
  split
  · split <;> exact ⟨rfl, rfl⟩
  split
  · split <;> exact ⟨rfl, rfl⟩
  · exact ⟨rfl, rfl⟩

def scanFrom (source : List Char) (cursor : Cursor) (scan : Scan) : Scan :=
  if cursor.at_ < source.length then
    let read := readToken source cursor
    scanFrom source read.2 (read.1.elim scan scan.read)
  else scan
termination_by source.length - cursor.at_
decreasing_by
  have further := @lt_readToken source _ ‹_›
  omega

structure CppBraceScopes where
  closes : Nat → Option Nat
  namespaces : NestedIntervals (List Char)
  lineStarts : List Nat

def CppBraceScopes.closeOf (scopes : CppBraceScopes) (open_ : Nat) : Option Nat := scopes.closes open_

/-- A byte-order mark is no part of the first line. -/
def firstCursor (source : List Char) : Cursor where
  at_ := if startsAt source 0 ['\xEF', '\xBB', '\xBF'] then 3 else 0

def namespacesOf (scan : Scan) : NestedIntervals (List Char) :=
  scan.namespaceAt.foldl (fun namespaces (brace, name) =>
    match scan.closes brace with
    | none => namespaces
    | some close => (namespaces.add brace close name).1) .default

def lineStartsOf (source : List Char) : List Nat := 0 :: (source.findIdxs (· = '\n')).map (· + 1)

def scanCppBraceScopes (text : List Char) : Option CppBraceScopes :=
  let source := units text
  let scan := scanFrom source (firstCursor source) {}
  if !scan.balanced || !scan.open_.isEmpty then none
  else some { closes := scan.closes, namespaces := namespacesOf scan, lineStarts := lineStartsOf source }

end Scanning

end Codegraph.Cpp.BraceScopes
