import Codegraph.Cpp.PatternMacros

/- This file rewrites the macros that stand on lines of their own, and restores the lines of directives. -/

namespace Codegraph.Cpp
open Utf8 Repainting Strides CodeClasses RegexEngine Scanning List
open Flattening (isPad isUpper isMacroChar isWord trim behindClosing behindClosing_shorter isContinued)

section AccessMacros

variable (bytes : List Char)

/-- The start and the end of a macro that stands with its colon on a line, and the place of the colon. -/
def accessMacroLine (start stop : Nat) : Option (Nat × Nat × Nat) :=
  let line := bytes.take stop
  let nameStart := skipBlanks line start
  let nameEnd := min (macroRunEnd bytes nameStart) stop
  let colon := skipBlanks line nameEnd
  let tail := withoutReturn (between bytes (skipBlanks line (colon + 1)) stop)
  if isUpper (byteAt bytes nameStart) ∧ isUnderscoredMacro bytes nameStart nameEnd ∧ byteAt bytes colon = ':' ∧
      byteAt bytes (colon + 1) ≠ ':' ∧ (tail.isEmpty || startsWith tail 0 "//") then
    some (nameStart, nameEnd, colon)
  else none

/-- The access specifier that a macro stands for. -/
def accessKeyword (name : List Char) : Option String :=
  if contains name "PRIVATE" then some "private"
  else if contains name "PROTECTED" then some "protected"
  else if contains name "PUBLIC" ∨ name = "Q_SIGNALS".toList ∨ name = "Q_SLOTS".toList then some "public"
  else none

/-- What is written over the macro of the line at a place. -/
def accessField (line : Nat) : Option (Nat × List Char) := do
  let (nameStart, nameEnd, colon) ← accessMacroLine bytes line (lineStop bytes line)
  if (cppCodeClasses bytes)[nameStart]? = some .literal then none
  else
    let keyword ← accessKeyword (between bytes nameStart nameEnd)
    if keyword.length ≤ colon - nameStart then
      some (nameStart, keyword.toList ++ List.replicate (colon - nameStart - keyword.length) ' ')
    else none

def accessFields : List (Nat × List Char) := overLines bytes (accessField bytes)

def accessGate : String := "_[A-Z0-9_]*[ \\t]*:"

/-- Access specifiers that are spelled as macros become the keywords they stand for. -/
def rewriteCppAccessMacros (engine : Engine) (source : List Char) : List Char :=
  if !(engine.findIter accessGate source).any (fun found => (units source)[found.span.2]? ≠ some ':') then source
  else if (accessFields (units source)).isEmpty then source
  else (fromUtf8 (overwriteAll (accessFields (units source)) (units source))).getD source

end AccessMacros

section LoneMacros

/-- The blanks, the macro and the rest of a line that starts with a macro. -/
def macroFirst (line : List Char) : Option (List Char × List Char × List Char) :=
  let code := line.dropWhile isPad
  let name := code.takeWhile isMacroChar
  if name.head?.any isUpper && name.length ≥ 4 then some (line.takeWhile isPad, name, code.dropWhile isMacroChar)
    else none

/-- The rest of a line holds at most a comment. -/
def isLoneTail (rest : List Char) : Bool :=
  let body := withoutReturn (rest.dropWhile isPad)
  let block := body.rdropWhile isPad
  body.isEmpty ||
    !body.contains '\r' &&
      (startsWith body 0 "//" || startsWith block 0 "/*" && decide ("*/".toList <:+ block.drop 2))

def isLoneGate (line : List Char) : Bool :=
  (macroFirst line).any fun parts => (withoutReturn (parts.2.2.dropWhile isPad)).isEmpty

def content (line : List Char) : List Char := trim (withoutReturn line)

/-- A line of code without its comments. -/
def withoutComments (text : List Char) : List Char :=
  match text with
  | [] => []
  | c :: rest =>
    if c = '/' ∧ rest.head? = some '*' then
      match _ : behindClosing rest.tail with
      | some behind => withoutComments behind
      | none => c :: withoutComments rest
    else if c = '/' ∧ rest.head? = some '/' then []
    else c :: withoutComments rest
termination_by text.length
decreasing_by
  · have shorter := behindClosing_shorter ‹_›
    rw [List.length_tail] at shorter
    rw [List.length_cons]
    omega
  · exact Nat.lt_succ_self _
  · exact Nat.lt_succ_self _

/-- The code of the last line before that holds something. -/
def previousCode (before : List (List Char)) : List Char :=
  let text := ((before.map content).find? fun text => !text.isEmpty).getD []
  if startsWith text 0 "//" || startsWith text 0 "/*" || startsWith text 0 "*" then [] else trim (withoutComments text)

/-- Code that is continued on the next line. -/
def continues (code : List Char) : Bool := code.getLast?.any fun c => "=+-*/%&|^<>?:,(\\".toList.contains c

def isTemplateHead (code : List Char) : Bool :=
  (stripPrefix "template" code).any fun rest => (rest.dropWhile isWhitespace).head? = some '<'

theorem length_trim_le (text : List Char) : (trim text).length ≤ text.length := by
  have back := ( rdropWhile_prefix isWhitespace (l := text.dropWhile isWhitespace)).length_le
  have front := (dropWhile_suffix (l := text) isWhitespace).length_le
  exact Nat.le_trans back front

theorem open_shorter {inBlock : Bool} {text code : List Char}
    (read : (if inBlock then (behindClosing text).map trim else some text) = some code)
    (opens : startsWith code 0 "/*") : (code.drop 2).length < text.length := by
  have longer : code.length ≤ text.length := by
    cases inBlock with
    | true =>
      obtain ⟨behind, closes, rfl⟩ := Option.map_eq_some_iff.mp read
      exact Nat.le_trans (length_trim_le behind) (Nat.le_of_lt (behindClosing_shorter closes))
    | false => exact Option.some.inj read ▸ Nat.le_refl _
  rw [startsWith, drop_zero, isPrefixOf_iff_prefix] at opens
  have two := opens.length_le
  rw [show "/*".toList.length = 2 by decide] at two
  rw [length_drop]
  omega

/-- A line from its first code on, and whether a block comment is open behind it. -/
def codeHead (inBlock : Bool) (text : List Char) : List Char × Bool :=
  match _ : if inBlock then (behindClosing text).map trim else some text with
  | none => ([], true)
  | some text =>
    if startsWith text 0 "//" then ([], false)
    else if startsWith text 0 "/*" then codeHead true (text.drop 2)
    else (text, false)
termination_by text.length
decreasing_by exact open_shorter ‹_› ‹_›

/-- The first character of code on some lines. -/
def firstCodeCharAfter : Bool → List (List Char) → Option Char
  | _, [] => none
  | inBlock, line :: rest =>
    let read := codeHead inBlock (trim line)
    read.1.head?.or (firstCodeCharAfter read.2 rest)

/-- A macro is alone on its line, and neither continues code nor is continued. -/
def isLone (classes : List CodeClass) (offset : Nat) (before : List (List Char)) (line : List Char)
    (after : List (List Char)) : Bool :=
  (macroFirst line).any fun parts =>
    isLoneTail parts.2.2 && parts.2.1.contains '_' && classes[offset + parts.1.length]? ≠ some .literal &&
      !(!(previousCode before).isEmpty && !isTemplateHead (previousCode before) && continues (previousCode before)) &&
      (firstCodeCharAfter false after).all fun first => isAlphabetic first || ['_', '#', '{', '}', '~'].contains first

/-- A line with its macro as spaces. -/
def withoutMacro (line : List Char) : List Char :=
  match macroFirst line with
  | some (indent, name, rest) => indent ++ List.replicate name.length ' ' ++ rest
  | none => line

/-- The lines that are written, from the last ones before on, and whether one of them is blanked. -/
def loneFrom (classes : List CodeClass) : Nat → List (List Char) → List (List Char) → List (List Char) × Bool
  | _, _, [] => ([], false)
  | offset, before, line :: after =>
    let lone := isLone classes offset before line after
    let written := if lone then withoutMacro line else line
    let later := loneFrom classes (offset + (units line).length + 1) (written :: before) after
    (written :: later.1, lone || later.2)

/-- Macros that are alone on a line are blanked. -/
def blankLoneMacroLines (source : List Char) : List Char :=
  let lines := source.splitOn '\n'
  if !lines.any isLoneGate then source
  else
    let written := loneFrom (cppCodeClasses (units source)) 0 [] lines
    if written.2 then ['\n'].intercalate written.1 else source

end LoneMacros

section Directives

def isDirectiveLine (line : List Char) : Bool := (line.dropWhile isPad).head? = some '#'

/-- The lines with those of directives and their continuations as they were. -/
def restoreFrom (classes : List CodeClass) : Nat → Bool → List (List Char) → List (List Char) → List (List Char)
  | offset, continuation, line :: originals, current :: lines =>
    let directive := continuation ||
      (isDirectiveLine line && classes[offset + (line.takeWhile isPad).length]? ≠ some .literal)
    (if directive then line else current) ::
      restoreFrom classes (offset + (units line).length + 1)
        (directive && isContinued (withoutReturn line)) originals lines
  | _, _, [], lines => lines
  | _, _, _ :: _, [] => []

/-- The lines of directives are copied back. -/
def restoreDirectiveLines (original blanked : List Char) : List Char :=
  if blanked = original ∨ !original.contains '#' then blanked
  else
    let lines := blanked.splitOn '\n'
    let restored := restoreFrom (cppCodeClasses (units original)) 0 false (original.splitOn '\n') lines
    if restored = lines then blanked else ['\n'].intercalate restored

end Directives

section Keywords

variable {bytes : List Char} {start : Nat} {keyword : String}

/-- A macro that leads its line, and is as long as the access specifier it stands for. -/
structure AccessMacro (bytes : List Char) (start : Nat) (keyword : String) : Prop where
  leads : LeadsLine bytes start
  known : keyword = "private" ∨ keyword = "protected" ∨ keyword = "public"
  spelled : ∃ nameEnd, isUnderscoredMacro bytes start nameEnd ∧ start + keyword.length ≤ nameEnd

/-- A macro with the blanks up to its colon, which a keyword and padding are written over. -/
structure AccessField (bytes : List Char) (start : Nat) (keyword : String) (padding : Nat) : Prop extends
    AccessMacro bytes start keyword where
  upper : isUpper (byteAt bytes start)
  plain : ∀ k, k < keyword.length + padding → isMacroChar (byteAt bytes (start + k)) ∨ isPad (byteAt bytes (start + k))
  colon : byteAt bytes (start + (keyword.length + padding)) = ':'

theorem contains_length {name : List Char} {inner : String} (inside : contains name inner = true) :
    inner.toList.length ≤ name.length :=
  (of_decide_eq_true inside).length_le

/-- The keyword of an access macro is no longer than the macro. -/
theorem accessKeyword_spec {name : List Char} (found : accessKeyword name = some keyword) :
    (keyword = "private" ∨ keyword = "protected" ∨ keyword = "public") ∧ keyword.length ≤ name.length := by
  rw [accessKeyword] at found
  split at found
  · rename_i inside
    obtain rfl := Option.some.inj found
    exact ⟨.inl rfl, Nat.le_trans (by decide) (contains_length inside)⟩
  · split at found
    · rename_i inside
      obtain rfl := Option.some.inj found
      exact ⟨.inr (.inl rfl), Nat.le_trans (by decide) (contains_length inside)⟩
    · split at found
      · rename_i public_
        obtain rfl := Option.some.inj found
        refine ⟨.inr (.inr rfl), ?_⟩
        rcases public_ with inside | rfl | rfl
        · exact Nat.le_trans (by decide) (contains_length inside)
        · decide
        · decide
      · cases found

/-- A blank in the first bytes is one of all the bytes. -/
theorem isPad_take {stop place : Nat} (pad : isPad (byteAt (bytes.take stop) place)) : isPad (byteAt bytes place) := by
  have solid : byteAt (bytes.take stop) place ≠ '\x00' := by
    intro none
    rw [none] at pad
    exact absurd pad (by decide)
  have inside := inside_of_at solid rfl
  rw [length_take] at inside
  rwa [byteAt, getElem?_take_of_lt (by omega)] at pad

theorem macro_chars {stop place : Nat} (spelled : isUnderscoredMacro bytes start stop)
    (behind : start ≤ place) (before : place < stop) (within : place < bytes.length) :
    isMacroChar (byteAt bytes place) := by
  rw [isUnderscoredMacro, Bool.and_eq_true, Bool.and_eq_true] at spelled
  refine all_eq_true.mp spelled.1.2 _ (mem_of_getElem? (i := place - start) ?_)
  rw [between, getElem?_take_of_lt (by omega), getElem?_drop, byteAt, Nat.add_sub_cancel' behind,
    getElem?_eq_getElem within, Option.getD_some]

/-- The macro of a line with its colon. -/
structure MacroLine (bytes : List Char) (line nameStart nameEnd colon : Nat) : Prop where
  behind : line ≤ nameStart
  indent : ∀ place, line ≤ place → place < nameStart → isPad (byteAt bytes place)
  upper : isUpper (byteAt bytes nameStart)
  spelled : isUnderscoredMacro bytes nameStart nameEnd
  named : nameStart < nameEnd ∧ nameEnd ≤ colon
  blanks : ∀ place, nameEnd ≤ place → place < colon → isPad (byteAt bytes place)
  colon : byteAt bytes colon = ':'

/-- What is found on a line is an access macro with its name and colon. -/
theorem accessMacroLine_spec {line stop nameStart nameEnd colon : Nat}
    (found : accessMacroLine bytes line stop = some (nameStart, nameEnd, colon)) :
    MacroLine bytes line nameStart nameEnd colon := by
  rw [accessMacroLine] at found
  split at found
  · rename_i checked
    obtain ⟨upper, spelled, ends, -⟩ := checked
    simp only [Option.some.injEq, Prod.mk.injEq] at found
    obtain ⟨rfl, rfl, rfl⟩ := found
    have token : min (macroRunEnd bytes (skipBlanks (bytes.take stop) line)) stop ≠ 0 := by
      intro none
      rw [isUnderscoredMacro, none, between, Nat.zero_sub] at spelled
      exact absurd spelled (by simp)
    refine ⟨le_skipBlanks .., fun place behind before => isPad_take (skipBlanks_pads behind before), upper, spelled,
      ⟨?_, le_skipBlanks ..⟩,
      fun place behind before => isPad_take (skipBlanks_pads behind before), ends⟩
    by_contra short
    rw [isUnderscoredMacro, between, Nat.sub_eq_zero_of_le (Nat.le_of_not_lt short)] at spelled
    exact absurd spelled (by simp)
  · cases found

/-- What is written over the macro of a line that starts at a place. -/
theorem accessField_spec {line : Nat} {field : List Char} (first : line = 0 ∨ bytes[line - 1]? = some '\n')
    (found : accessField bytes line = some (start, field)) :
    ∃ keyword padding, AccessField bytes start keyword padding ∧
      field = keyword.toList ++ List.replicate padding ' ' := by
  obtain ⟨⟨nameStart, nameEnd, colon⟩, spelled, found⟩ := Option.bind_eq_some_iff.mp found
  have macro_ := accessMacroLine_spec spelled
  dsimp only at found
  split at found
  · cases found
  · obtain ⟨keyword, named, found⟩ := Option.bind_eq_some_iff.mp found
    split at found
    · rename_i fits
      obtain ⟨rfl, rfl⟩ := Prod.mk.inj (Option.some.inj found)
      obtain ⟨known, shorter⟩ := accessKeyword_spec named
      have within : colon < bytes.length := inside_of_at (by decide) macro_.colon
      have ordered := macro_.named
      have room : nameStart + (keyword.length + (colon - nameStart - keyword.length)) = colon := by omega
      refine ⟨keyword, colon - nameStart - keyword.length,
        ⟨⟨⟨line, macro_.behind, first, macro_.indent⟩, known, nameEnd,
        macro_.spelled, ?_⟩, macro_.upper, fun k inside => ?_, by rw [room]; exact macro_.colon⟩, rfl⟩
      · rw [between, length_take, length_drop] at shorter
        omega
      · rcases Nat.lt_or_ge (nameStart + k) nameEnd with before | behind
        · exact .inl (macro_chars macro_.spelled (Nat.le_add_right ..) before (by omega))
        · exact .inr (macro_.blanks _ behind (by omega))
    · cases found

theorem accessFields_spec {field : Nat × List Char} (member : field ∈ accessFields bytes) :
    ∃ keyword padding, AccessField bytes field.1 keyword padding ∧
      field.2 = keyword.toList ++ List.replicate padding ' ' := by
  obtain ⟨line, first, found⟩ := mem_overLines member
  exact accessField_spec first found

end Keywords

section Rewriting

variable {source : List Char} {bytes : List Char} {start : Nat} {keyword : String}

/-- A byte that is written over a macro and the blanks behind it. -/
def AccessByte (bytes : List Char) (i : Nat) (c : Char) : Prop :=
  ∃ start keyword padding, AccessField bytes start keyword padding ∧ start ≤ i ∧
    (keyword.toList ++ List.replicate padding ' ')[i - start]? = some c

theorem accessMacro_letters (macro_ : AccessMacro bytes start keyword) : ∀ c ∈ keyword.toList, 'a' ≤ c ∧ c ≤ 'z' := by
  rcases macro_.known with rfl | rfl | rfl <;> simp

theorem isPad_cases {c : Char} (pad : isPad c) : c = ' ' ∨ c = '\t' := by
  simpa [isPad] using pad

theorem accessField_chars {padding : Nat} (written : AccessField bytes start keyword padding)
    {c : Char} (member : c ∈ keyword.toList ++ List.replicate padding ' ') : c.toNat < 128 ∧ isBreak c = false := by
  rcases mem_append.mp member with letter | space
  · have plain : ∀ d : Char, 'a' ≤ d → d ≤ 'z' → isWord d := by
      intro d low high
      simp [isWord, low, high]
    have range := accessMacro_letters written.toAccessMacro c letter
    exact isWord_plain (plain c range.1 range.2)
  · obtain rfl := eq_of_mem_replicate space
    decide

theorem accessField_plain {padding k : Nat} (written : AccessField bytes start keyword padding)
    (inside : k < keyword.length + padding) : isBreak (byteAt bytes (start + k)) = false := by
  rcases written.plain k inside with macroChar | pad
  · exact solid_of_bounds (isMacroChar_bounds macroChar).1
  · rcases isPad_cases pad with same | same
    · rw [same]; rfl
    · rw [same]; rfl

theorem accessField_atChar {padding : Nat} (written : AccessField (units source) start keyword padding) :
    AtChar source start ∧ AtChar source (start + (keyword.length + padding)) := by
  have capital : isMacroChar (byteAt (units source) start) := by rw [isMacroChar, written.upper]; rfl
  have first := isMacroChar_shown capital
  exact ⟨(atChar_ascii (get_of_at first.2.1 rfl) first.1).1,
    (atChar_ascii (get_of_at (by decide) written.colon) (by decide)).1⟩

/-- The pass writes nothing but the bytes of an access specifier. -/
theorem repaints_access (engine : Engine) (source : List Char) :
    Repaints (AccessByte (units source)) (units source) (units (rewriteCppAccessMacros engine source)) := by
  rw [rewriteCppAccessMacros]
  split
  · exact .refl _ _
  · split
    · exact .refl _ _
    · have keeps : KeepsText source (overwriteAll (accessFields (units source)) (units source)) := by
        refine keepsText_overwriteAll (fun field member => ?_) fun field member => ?_
        · obtain ⟨keyword, padding, written, same⟩ := accessFields_spec member
          rw [same]
          exact fun c inside => (accessField_chars written inside).1
        · obtain ⟨keyword, padding, written, same⟩ := accessFields_spec member
          rw [same, length_append, length_replicate, String.length_toList]
          exact accessField_atChar written
      obtain ⟨out, painted, -⟩ := keeps
      rw [← painted, fromUtf8_units, Option.getD_some, painted]
      refine repaints_overwriteAll (fun i c new => ?_) (fun field member k b inside found => ?_)
        fun field member i c behind new => ?_
      · obtain ⟨start, keyword, padding, written, -, here⟩ := new
        exact (accessField_chars written (mem_of_getElem? here)).2
      · obtain ⟨keyword, padding, written, same⟩ := accessFields_spec member
        rw [same, length_append, length_replicate, String.length_toList] at inside
        have plain := accessField_plain written inside
        rwa [byteAt, found] at plain
      · obtain ⟨keyword, padding, written, same⟩ := accessFields_spec member
        exact ⟨field.1, keyword, padding, written, behind, same ▸ new⟩

end Rewriting

section Lines

theorem macroFirst_split {line indent name rest : List Char} (found : macroFirst line = some (indent, name, rest)) :
    line = indent ++ (name ++ rest) ∧ ∀ c ∈ name, isMacroChar c := by
  rw [macroFirst] at found
  split at found
  · simp only [Option.some.injEq, Prod.mk.injEq] at found
    obtain ⟨rfl, rfl, rfl⟩ := found
    exact ⟨by rw [takeWhile_append_dropWhile, takeWhile_append_dropWhile],
      fun c member => mem_takeWhile_imp member⟩
  · cases found

theorem blanked_withoutMacro (line : List Char) : Blanked line (withoutMacro line) := by
  rw [withoutMacro]
  split
  · rename_i indent name rest found
    obtain ⟨rfl, chars⟩ := macroFirst_split found
    have ascii : units name = name := units_ascii fun c member => (isMacroChar_shown (chars c member)).1
    have spaces : units (replicate name.length ' ') = replicate name.length ' ' := by
      refine units_ascii fun c member => ?_
      obtain rfl := eq_of_mem_replicate member
      decide
    have blank := repaints_spaces fun c member => solid_of_bounds (isMacroChar_bounds (chars c member)).1
    rw [Blanked, append_assoc, units_append, units_append, units_append, units_append, ascii, spaces]
    exact (Repaints.refl _ _).append_same (blank.append_same (Repaints.refl _ _))
  · exact .refl line

theorem lone_lines (classes : List CodeClass) (offset : Nat) (before lines : List (List Char)) :
    List.Forall₂ Blanked lines (loneFrom classes offset before lines).1 := by
  induction lines generalizing offset before with
  | nil => exact .nil
  | cons line after ih =>
    rw [loneFrom]
    refine .cons ?_ (ih _ _)
    split
    · exact blanked_withoutMacro line
    · exact .refl line

theorem blanked_loneMacros (source : List Char) : Blanked source (blankLoneMacroLines source) := by
  rw [blankLoneMacroLines]
  split
  · exact .refl source
  · dsimp only
    split
    · have lines := repaints_lines (lone_lines (cppCodeClasses (units source)) 0 [] (source.splitOn '\n'))
      rwa [intercalate_splitOn] at lines
    · exact .refl source

/-- Restored lines repaint no more than the lines did. -/
theorem restored_rows {Allowed : Nat → Char → Prop} (classes : List CodeClass) (offset place : Nat)
    (continuation : Bool)
    {originals lines : List (List Char)} (rows : RowsRepaint Allowed place (originals.map units) (lines.map units)) :
    RowsRepaint Allowed place (originals.map units)
    ((restoreFrom classes offset continuation originals lines).map units) := by
  induction originals generalizing offset place continuation lines with
  | nil =>
    cases lines with
    | nil => exact rows
    | cons line lines => cases rows
  | cons line originals ih =>
    cases lines with
    | nil => cases rows
    | cons current lines =>
      cases rows with
      | cons head tail =>
        rw [restoreFrom]
        refine .cons ?_ (ih _ _ _ tail)
        split
        · exact .refl _ _
        · exact head

/-- Lines that are copied back are those of the original. -/
theorem repaints_restored {Allowed : Nat → Char → Prop} (solid : ∀ i c, Allowed i c → isBreak c = false)
    {original blanked : List Char} (repaints : Repaints Allowed (units original) (units blanked)) :
    Repaints Allowed (units original) (units (restoreDirectiveLines original blanked)) := by
  rw [restoreDirectiveLines]
  split
  · exact repaints
  · dsimp only
    split
    · exact repaints
    · have free (text : List Char) : ∀ row ∈ (text.splitOn '\n').map units, '\n' ∉ row := by
        intro row member
        obtain ⟨line, part, rfl⟩ := mem_map.mp member
        exact newline_units (SeparatedText.mem_splitOn part).1
      have some_rows (text : List Char) : (text.splitOn '\n').map units ≠ [] :=
        fun none => splitOn_ne_nil _ _ (map_eq_nil_iff.mp none)
      have rows : RowsRepaint Allowed 0 ((original.splitOn '\n').map units) ((blanked.splitOn '\n').map units) := by
        refine rowsRepaint_of_joined solid (free _) (free _) (some_rows _) (some_rows _) ?_
        rw [← units_intercalate, ← units_intercalate, intercalate_splitOn, intercalate_splitOn]
        simpa only [Nat.zero_add] using repaints
      have joined := (restored_rows (cppCodeClasses (units original)) 0 0 false rows).joined
      rw [← units_intercalate, ← units_intercalate, intercalate_splitOn] at joined
      simpa only [Nat.zero_add] using joined

end Lines

end Codegraph.Cpp
