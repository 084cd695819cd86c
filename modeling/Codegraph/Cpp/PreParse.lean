import Codegraph.Cpp.MacroLines

/- This file shows that the passes over a C++ source keep the place of every byte that they do not write. -/

namespace Codegraph.Cpp
open Utf8 Repainting CodeClasses RegexEngine List
open Flattening (isPad isUpper flattenFrom blankLine flattenMidStatementConditionals)

section Pipeline

variable (engine : Engine) (source : List Char) (filePath : String)

/-- The passes one after another, unless one of them leaves bytes that are no text. -/
def tryPreParseCppSource : Option (List Char) := do
  let source := flattenMidStatementConditionals (rewriteCppAccessMacros engine source)
  let blanked ← fromUtf8 (blankMsvcComInterfaceKeyword (units source))
  let blanked := blankCppInlineMacros engine (blankCppExportMacros engine blanked)
  let blanked ← fromUtf8 (blankCppInlineAnnotationMacros engine (blankCppApiPrefixMacros engine (units blanked)))
  let blanked := blankCppDeclaratorAttributeMacros engine
    (blankCppTrailingAttributeMacros engine (blankCppPointerAnnotationMacros engine blanked))
  let blanked ← fromUtf8 (blankCppAnnotationMacroCalls engine (units blanked))
  let blanked := blankLoneMacroLines (blankCppLeadingAttributeMacros engine (blankCLeadingAttrMacros engine blanked))
  let lower := filePath.toList.map Char.toLower
  let bytes :=
    if ".metal".toList <:+ lower then blankMetalAttributes engine (units blanked)
    else if ".cu".toList <:+ lower ∨ ".cuh".toList <:+ lower ∨ looksLikeCudaSource source then
      blankCudaConstructs engine (units blanked)
    else units blanked
  let text ← fromUtf8 bytes
  return restoreDirectiveLines source text

/-- The passes, or the source where a pass breaks the text. -/
def preParseCppSource : List Char := (tryPreParseCppSource engine source filePath).getD source

end Pipeline

section Flattened

/-- Every line is kept or blanked as a whole. -/
theorem flattenFrom_lines (classes : List CodeClass) (offset : Nat) (state : Flattening.State)
    (lines : List (List Char)) : List.Forall₂ (fun line out => out = line ∨ out = blankLine line) lines
      (flattenFrom classes offset state lines).1 := by
  induction lines generalizing offset state with
  | nil => exact .nil
  | cons line rest ih =>
    rw [flattenFrom]
    refine .cons ?_ (ih _ _)
    split
    · exact .inr rfl
    · exact .inl rfl

/-- A byte that is replaced is on a line of bytes that are all blank. -/
def WholeLines (bytes painted : List Char) : Prop :=
  ∀ (p q : Nat) (c : Char), painted[q]? = some c → painted[p]? ≠ bytes[p]? →
    (∀ k, p ≤ k ∧ k < q ∨ q ≤ k ∧ k < p → painted[k]? ≠ some '\n') → c = ' ' ∨ c = '\r' ∨ c = '\n'

/-- A row that is kept or blanked. -/
def WholeRow (row out : List Char) : Prop := out = row ∨ out.length = row.length ∧ ∀ c ∈ out, c = ' ' ∨ c = '\r'

variable {row out rest outRest : List Char}

theorem WholeRow.length_eq (whole : WholeRow row out) : out.length = row.length := by
  rcases whole with rfl | ⟨same, -⟩
  · rfl
  · exact same

theorem WholeRow.wholeLines (whole : WholeRow row out) : WholeLines row out := by
  intro p q c found differs _
  rcases whole with rfl | ⟨-, blank⟩
  · exact absurd rfl differs
  · exact (blank c (mem_of_getElem? found)).imp_right .inl

/-- A row that is kept whole goes before lines that are. -/
theorem WholeRow.append (whole : WholeRow row out) (later : WholeLines rest outRest) :
    WholeLines (row ++ '\n' :: rest) (out ++ '\n' :: outRest) := by
  have same := whole.length_eq
  have middle : (out ++ '\n' :: outRest)[row.length]? = some '\n' := by
    rw [← same, getElem?_append_right (Nat.le_refl _), Nat.sub_self]
    rfl
  have behind {first second : List Char} {k : Nat} (length : first.length = row.length) (past : row.length < k) :
      (first ++ '\n' :: second)[k]? = second[k - row.length - 1]? := by
    rw [getElem?_append_right (by omega), length, show k - row.length = k - row.length - 1 + 1 by omega,
      getElem?_cons_succ, Nat.add_sub_cancel]
  intro p q c found differs path
  rcases Nat.lt_trichotomy p row.length with before | rfl | after
  · rcases Nat.lt_trichotomy q row.length with near | rfl | far
    · rw [getElem?_append_left (by omega)] at found
      rw [getElem?_append_left (by omega), getElem?_append_left before] at differs
      refine whole.wholeLines p q c found differs fun k between => ?_
      have clear := path k between
      rwa [getElem?_append_left (by omega)] at clear
    · exact .inr (.inr (Option.some.inj (found.symm.trans middle)))
    · exact absurd middle (path row.length (.inl ⟨Nat.le_of_lt before, far⟩))
  · refine absurd ?_ differs
    rw [middle, getElem?_append_right (Nat.le_refl _), Nat.sub_self]
    rfl
  · rcases Nat.lt_or_ge row.length q with far | near
    · rw [behind same far] at found
      rw [behind same after, behind rfl after] at differs
      refine later _ _ c found differs fun k between => ?_
      have clear := path (k + row.length + 1) (by omega)
      rwa [behind same (by omega), show k + row.length + 1 - row.length - 1 = k by omega] at clear
    · exact absurd middle (path row.length (.inr ⟨near, after⟩))

theorem wholeLines_joined {rows outs : List (List Char)} (each : List.Forall₂ WholeRow rows outs) :
    WholeLines (['\n'].intercalate rows) (['\n'].intercalate outs) := by
  induction each with
  | nil => intro p q c found; cases found
  | @cons row out rows outs head tail ih =>
    cases tail with
    | nil => simpa using head.wholeLines
    | cons next tail =>
      rw [intercalate_cons_cons, intercalate_cons_cons, append_assoc, append_assoc]
      exact head.append ih

theorem units_blankLine (line : List Char) : units (blankLine line) = blankLine line := by
  refine units_ascii fun c member => ?_
  obtain ⟨byte, -, rfl⟩ := mem_map.mp member
  split <;> decide

theorem wholeRow_blankLine (line : List Char) : WholeRow (units line) (units (blankLine line)) := by
  rw [units_blankLine]
  refine .inr ⟨length_map .., fun c member => ?_⟩
  obtain ⟨byte, -, rfl⟩ := mem_map.mp member
  split
  · exact .inr rfl
  · exact .inl rfl

theorem blanked_blankLine {line : List Char} (free : '\n' ∉ line) : Blanked line (blankLine line) where
  length_eq := by rw [units_blankLine, blankLine, length_map]
  replaced {i b c} old new other := by
    rw [units_blankLine, blankLine, getElem?_map, old, Option.map_some, Option.some.injEq] at new
    split at new
    · exact absurd (new.symm.trans (.symm ‹b = '\r'›)) other
    · have solid : b ≠ '\n' := by
        rintro rfl
        exact newline_units free (mem_of_getElem? old)
      exact ⟨by simp [isBreak, solid, ‹¬b = '\r'›], new.symm⟩

/-- Flattening writes nothing but spaces, and it blanks a line or keeps it as a whole. -/
theorem flatten_lines (source : List Char) : Blanked source (flattenMidStatementConditionals source) ∧
    WholeLines (units source) (units (flattenMidStatementConditionals source)) := by
  have lines := flattenFrom_lines (cppCodeClasses (units source)) 0 {} (source.splitOn '\n')
  have unchanged : Blanked source source ∧ WholeLines (units source) (units source) :=
    ⟨.refl source, fun _ _ _ _ differs => absurd rfl differs⟩
  rw [flattenMidStatementConditionals]
  split
  · exact unchanged
  · dsimp only
    split
    · have blanked : List.Forall₂ (fun line out => Repaints (fun _ c => c = ' ') (units line) (units out))
        (source.splitOn '\n')
          (flattenFrom (cppCodeClasses (units source)) 0 {} (source.splitOn '\n')).1 := by
        have free := (forall₂_and_left _ _).mpr ⟨fun line member => (SeparatedText.mem_splitOn member).1, lines⟩
        refine free.imp fun line out ⟨plain, written⟩ => ?_
        rcases written with rfl | rfl
        · exact .refl _ _
        · exact blanked_blankLine plain
      have whole : List.Forall₂ WholeRow ((source.splitOn '\n').map units)
          ((flattenFrom (cppCodeClasses (units source)) 0 {} (source.splitOn '\n')).1.map units) := by
        rw [forall₂_map_left_iff, forall₂_map_right_iff]
        refine lines.imp fun line out written => ?_
        rcases written with rfl | rfl
        · exact .inl rfl
        · exact wholeRow_blankLine line
      have repaints := repaints_lines blanked
      have joined := wholeLines_joined whole
      rw [← units_intercalate, ← units_intercalate, intercalate_splitOn] at joined
      rw [intercalate_splitOn] at repaints
      exact ⟨repaints, joined⟩
    · exact unchanged

end Flattened

section Tokens

variable {bytes painted : List Char} {line start place : Nat}

/-- A line that starts with blanks and an `interface` token. -/
structure TokenLine (bytes : List Char) (line start : Nat) : Prop where
  ordered : line ≤ start
  first : line = 0 ∨ bytes[line - 1]? = some '\n'
  pads : ∀ place, line ≤ place → place < start → isPad (byteAt bytes place)
  token : ∀ k c, interfaceKeyword.toList[k]? = some c → bytes[start + k]? = some c

theorem interfaceToken_iff : InterfaceToken bytes start ↔ ∃ line, TokenLine bytes line start := by
  constructor
  · rintro ⟨⟨line, ordered, first, pads⟩, token⟩
    exact ⟨line, ordered, first, pads, token⟩
  · rintro ⟨line, ordered, first, pads, token⟩
    exact ⟨⟨line, ordered, first, pads⟩, token⟩

/-- A byte that stands before or in the token. -/
def IsTokenByte (c : Char) : Prop := isPad c ∨ c ∈ interfaceKeyword.toList

theorem TokenLine.byte (tokenLine : TokenLine bytes line start) (behind : line ≤ place)
    (before : place < start + interfaceKeyword.toList.length) : ∃ c, bytes[place]? = some c ∧ IsTokenByte c := by
  rcases Nat.lt_or_ge place start with indent | inside
  · have pad := tokenLine.pads place behind indent
    refine ⟨_, get_of_at (fun none => ?_) rfl, .inl pad⟩
    rw [none] at pad
    exact absurd pad (by decide)
  · have spelled : interfaceKeyword.toList[place - start]? = some _ := getElem?_eq_getElem (by omega)
    have found := tokenLine.token _ _ spelled
    rw [Nat.add_sub_cancel' inside] at found
    exact ⟨_, found, .inr (mem_of_getElem? spelled)⟩

/-- A line is the same where its bytes are. -/
theorem TokenLine.of_same (tokenLine : TokenLine painted line start) (first : line = 0 ∨ bytes[line - 1]? = some '\n')
    (same : ∀ place, line ≤ place → place < start + interfaceKeyword.toList.length → bytes[place]? = painted[place]?) :
    TokenLine bytes line start where
  ordered := tokenLine.ordered
  first := first
  pads place behind before := by
    rw [byteAt, same place behind (by omega)]
    exact tokenLine.pads place behind before
  token k c spelled := by
    have inside := (List.getElem?_eq_some_iff.mp spelled).1
    have ordered := tokenLine.ordered
    rw [same (start + k) (by omega) (by omega)]
    exact tokenLine.token k c spelled

/-- A line of the painted text whose token stands is a line of the text where lines are blanked as a whole. -/
theorem TokenLine.of_wholeLines (tokenLine : TokenLine painted line start) (whole : WholeLines bytes painted)
    (blanks : Repaints (fun _ c => c = ' ') bytes painted) : TokenLine bytes line start := by
  have solid : ∀ (_ : Nat) (c : Char), c = ' ' → isBreak c = false := by
    rintro - c rfl
    rfl
  refine tokenLine.of_same (tokenLine.first.imp_right (blanks.break_iff solid rfl).mp) fun place behind before => ?_
  by_contra differs
  have letter := tokenLine.token 0 'i' (by decide)
  have ordered := tokenLine.ordered
  have size : 0 < interfaceKeyword.toList.length := by decide
  have blank := whole place start 'i' letter (.symm differs) fun k between breaks => by
    obtain ⟨c, found, read⟩ : ∃ c, painted[k]? = some c ∧ IsTokenByte c := tokenLine.byte (by omega) (by omega)
    rw [found, Option.some.injEq] at breaks
    subst breaks
    rcases read with pad | spelled
    · exact absurd pad (by decide)
    · exact absurd spelled (by decide)
  exact absurd blank (by decide)

variable {other padding otherPadding : Nat} {keyword otherKeyword : String}

/-- A field does not reach from one line to the next. -/
theorem AccessField.line_le (field : AccessField bytes start keyword padding)
    (first : line = 0 ∨ bytes[line - 1]? = some '\n')
    (behind : line ≤ place) (before : place < start + (keyword.length + padding)) : line ≤ start := by
  by_contra crosses
  rcases first with rfl | breaks
  · omega
  · have plain := accessField_plain (k := line - 1 - start) field (by omega)
    rw [Nat.add_sub_cancel' (by omega), byteAt, breaks] at plain
    exact absurd plain (by decide)

/-- Two fields that share a byte are one. -/
theorem AccessField.start_eq (field : AccessField bytes start keyword padding)
    (second : AccessField bytes other otherKeyword otherPadding)
    (behind : other ≤ start) (before : start < other + (otherKeyword.length + otherPadding)) : other = start := by
  by_contra differs
  obtain ⟨line, ordered, first, pads⟩ := field.leads
  have within := second.line_le first ordered before
  have pad := pads other within (by omega)
  have upper := second.upper
  rcases isPad_cases pad with same | same
  · rw [same] at upper
    exact absurd upper (by decide)
  · rw [same] at upper
    exact absurd upper (by decide)

/-- A line of the painted text whose token stands is a line of the text where only access macros are painted. -/
theorem TokenLine.of_access (tokenLine : TokenLine painted line start)
    (repaints : Repaints (AccessByte bytes) bytes painted) : TokenLine bytes line start := by
  have solid (i : Nat) (c : Char) (written : AccessByte bytes i c) : isBreak c = false := by
    obtain ⟨_, _, _, field, -, here⟩ := written
    exact (accessField_chars field (List.mem_of_getElem? here)).2
  have first := tokenLine.first.imp_right (repaints.break_iff solid rfl).mp
  refine tokenLine.of_same first fun place behind before => ?_
  obtain ⟨c, new, -⟩ := tokenLine.byte behind before
  obtain ⟨b, old⟩ := repaints.get new
  by_contra differs
  have changed : c ≠ b := fun same => differs (by rw [old, new, same])
  obtain ⟨-, field, keyword, padding, written, inside, here⟩ := repaints.replaced old new changed
  have shorter := (List.getElem?_eq_some_iff.mp here).1
  rw [length_append, length_replicate, String.length_toList] at shorter
  have within := written.line_le first behind (by omega)
  obtain ⟨d, newFirst, read⟩ : ∃ d, painted[field]? = some d ∧ IsTokenByte d := tokenLine.byte within (by omega)
  have upper := written.upper
  have plain : isUpper d = false := by
    rcases read with pad | spelled
    · rcases isPad_cases pad with rfl | rfl <;> rfl
    · have lower : ∀ e ∈ interfaceKeyword.toList, isUpper e = false := by simp [interfaceKeyword, isUpper]
      exact lower d spelled
  have oldFirst : bytes[field]? = some (byteAt bytes field) :=
    get_of_at (fun none => by rw [none] at upper; exact absurd upper (by decide)) rfl
  have changedFirst : d ≠ byteAt bytes field := fun same => by rw [same, upper] at plain; cases plain
  obtain ⟨-, second, secondKeyword, secondPadding, writtenSecond, insideSecond, hereSecond⟩ :=
    repaints.replaced oldFirst newFirst changedFirst
  have shorterSecond := (List.getElem?_eq_some_iff.mp hereSecond).1
  rw [length_append, length_replicate, String.length_toList] at shorterSecond
  have same := written.start_eq writtenSecond insideSecond (by omega)
  subst same
  have letter : d = 'p' := by
    rw [Nat.sub_self] at hereSecond
    rcases writtenSecond.known with rfl | rfl | rfl <;> exact (Option.some.inj hereSecond).symm
  subst letter
  rcases read with pad | spelled
  · exact absurd pad (by decide)
  · exact absurd spelled (by decide)

end Tokens

section Chain

/-- What the passes rely on: matches are on character boundaries, and the indentation of a call is the head of its
match. -/
structure Sound (engine : Engine) : Prop extends engine.OnChars where
  indented : ∀ text start, ∀ found ∈ engine.findAt annotationCall text start, ∀ group ∈ found.group,
    group.1 = found.span.1

/-- What the passes write: spaces, an access specifier over a macro, and `struct` over an `interface` token. -/
def KeywordByte (bytes : List Char) (i : Nat) (c : Char) : Prop :=
  c = ' ' ∨ (∃ start keyword, AccessMacro bytes start keyword ∧ InKeyword keyword start i c) ∨
    ∃ start, InterfaceToken bytes start ∧ InKeyword "struct" start i c

/-- A source after the passes: line breaks stay, and other bytes only become spaces or parts of keywords. -/
structure KeepsPlaces (source out : List Char) : Prop where
  length_eq : (units out).length = (units source).length
  breaks : ∀ (i : Nat) (mark : Char), mark = '\n' ∨ mark = '\r' →
    ((units out)[i]? = some mark ↔ (units source)[i]? = some mark)
  written : ∀ (i : Nat) (c : Char), (units out)[i]? = some c → (units source)[i]? ≠ some c →
    KeywordByte (units source) i c

variable {engine : Engine} (sound : Sound engine) (source : List Char) {bytes : List Char}

theorem keywordByte_solid (i : Nat) (c : Char) (written : KeywordByte bytes i c) : isBreak c = false := by
  rcases written with rfl | ⟨start, keyword, macro_, -, found⟩ | token
  · rfl
  · have letters : ∀ d ∈ keyword.toList, isBreak d = false := by
      rcases macro_.known with rfl | rfl | rfl <;> simp [isBreak]
    exact letters c (mem_of_getElem? found)
  · exact interfaceByte_solid i c (.inr token)

theorem keepsPlaces_of_repaints {out : List Char}
    (repaints : Repaints (KeywordByte (units source)) (units source) (units out)) : KeepsPlaces source out where
  length_eq := repaints.length_eq
  breaks i mark marks := repaints.break_iff keywordByte_solid (by rcases marks with rfl | rfl <;> rfl)
  written i c new differs := by
    obtain ⟨b, old⟩ := repaints.get new
    exact (repaints.replaced old new fun same => differs (same ▸ old)).2

theorem keyword_of_access {i : Nat} {c : Char} (written : AccessByte bytes i c) : KeywordByte bytes i c := by
  obtain ⟨start, keyword, padding, field, behind, found⟩ := written
  exact (get_padded found).imp_right fun letter => .inl ⟨start, keyword, field.toAccessMacro, behind, letter⟩

theorem keyword_of_space {i : Nat} {c : Char} (space : c = ' ') : KeywordByte bytes i c := .inl space

/-- The tokens of the flattened source are those of the source. -/
theorem keyword_of_interface (engine : Engine) {i : Nat} {c : Char}
    (written : InterfaceByte (units (flattenMidStatementConditionals (rewriteCppAccessMacros engine source))) i c) :
    KeywordByte (units source) i c := by
  rcases written with space | ⟨start, token, letter⟩
  · exact .inl space
  · obtain ⟨line, tokenLine⟩ := interfaceToken_iff.mp token
    have flattened := flatten_lines (rewriteCppAccessMacros engine source)
    have rewritten := tokenLine.of_wholeLines flattened.2 flattened.1
    exact .inr (.inr
      ⟨start, interfaceToken_iff.mpr ⟨line, rewritten.of_access (repaints_access engine source)⟩, letter⟩)

/-- Two passes that only write spaces over a source. -/
theorem Blanked.trans {first second third : List Char} (one : Blanked first second) (two : Blanked second third) :
    Blanked first third :=
  Repaints.trans one two

theorem Writes.text {Allowed : Nat → Char → Prop} {source : List Char} (writes : Writes Allowed source bytes) :
    ∃ out, fromUtf8 bytes = some out ∧ Repaints Allowed (units source) (units out) := by
  obtain ⟨out, rfl, repaints⟩ := writes
  exact ⟨out, fromUtf8_units out, repaints⟩

theorem BlanksBytes.then {first : List Char} {later : List Char} (one : BlanksBytes first bytes)
    (two : ∀ second, bytes = units second → BlanksBytes second later) : BlanksBytes first later := by
  obtain ⟨second, same, repaints⟩ := one
  obtain ⟨third, rfl, laterRepaints⟩ := two second same
  exact ⟨third, rfl, repaints.trans (same ▸ laterRepaints)⟩

include sound

theorem blanks_unreal :
    BlanksBytes source (blankCppInlineAnnotationMacros engine (blankCppApiPrefixMacros engine (units source))) :=
  (blanks_apiPrefix sound.toOnChars source).then fun second same => same ▸
    blanks_inlineAnnotation sound.toOnChars second

theorem blanks_dialect (lower : List Char) (cuda : Bool) : BlanksBytes source (
      if ".metal".toList <:+ lower then blankMetalAttributes engine (units source)
      else if ".cu".toList <:+ lower ∨ ".cuh".toList <:+ lower ∨ cuda then blankCudaConstructs engine (units source)
      else units source) := by
  split
  · exact blanks_metal sound.toOnChars source
  · split
    · exact blanks_cuda sound.toOnChars source
    · exact blanks_same source

/-- The passes leave a text, in which every byte that they do not write has kept its place. -/
theorem pre_parse_keeps_places (filePath : String) :
    ∃ out, tryPreParseCppSource engine source filePath = some out ∧ preParseCppSource engine source filePath = out ∧
      KeepsPlaces source out := by
  let flattened := flattenMidStatementConditionals (rewriteCppAccessMacros engine source)
  obtain ⟨structs, decodedStructs, writtenStructs⟩ := (writes_interface flattened).text
  let heads := blankCppInlineMacros engine (blankCppExportMacros engine structs)
  have blankedHeads : Blanked structs heads := (blanked_export engine structs).trans (blanked_inline sound.toOnChars _)
  obtain ⟨unreal, decodedUnreal, blankedUnreal⟩ := (blanks_unreal sound heads).text
  let declarators := blankCppDeclaratorAttributeMacros engine
    (blankCppTrailingAttributeMacros engine (blankCppPointerAnnotationMacros engine unreal))
  have blankedDeclarators : Blanked unreal declarators :=
    ((blanked_pointer engine unreal).trans (blanked_trailing engine _)).trans (blanked_declarator engine _)
  obtain ⟨calls, decodedCalls, blankedCalls⟩ := (blanks_annotationCalls sound.toOnChars declarators sound.indented).text
  let lone := blankLoneMacroLines (blankCppLeadingAttributeMacros engine (blankCLeadingAttrMacros engine calls))
  have blankedLone : Blanked calls lone :=
    ((blanked_cLeadingAttr sound.toOnChars calls).trans (blanked_leading engine _)).trans (blanked_loneMacros _)
  obtain ⟨text, decodedText, blankedText⟩ :=
    (blanks_dialect sound lone (filePath.toList.map Char.toLower) (looksLikeCudaSource flattened)).text
  have result : tryPreParseCppSource engine source filePath = some (restoreDirectiveLines flattened text) := by
    rw [tryPreParseCppSource]
    refine Option.bind_eq_some_iff.mpr ⟨structs, decodedStructs, ?_⟩
    refine Option.bind_eq_some_iff.mpr ⟨unreal, decodedUnreal, ?_⟩
    refine Option.bind_eq_some_iff.mpr ⟨calls, decodedCalls, ?_⟩
    exact Option.bind_eq_some_iff.mpr ⟨text, decodedText, rfl⟩
  have spaces : Blanked structs text :=
    ((((blankedHeads.trans blankedUnreal).trans blankedDeclarators).trans blankedCalls).trans blankedLone).trans
      blankedText
  have later : Repaints (InterfaceByte (units flattened)) (units flattened) (units text) :=
    writtenStructs.trans (spaces.mono fun i c space => .inl space)
  have restored := (repaints_restored interfaceByte_solid later).mono fun i c => keyword_of_interface source engine
  have flat : Repaints (KeywordByte (units source)) (units source) (units flattened) :=
    ((repaints_access engine source).mono fun i c => keyword_of_access).trans
      ((flatten_lines _).1.mono fun i c => keyword_of_space)
  exact ⟨_, result, by rw [preParseCppSource, result]; rfl, keepsPlaces_of_repaints source (flat.trans restored)⟩

end Chain

section Signals

/-- The engine on a line that is an access specifier and nothing else. -/
def signalsEngine : Engine where
  isMatch _ _ := false
  isMatchBytes _ _ := false
  findIter pattern text := if pattern = accessGate ∧ text = "Q_SIGNALS:\n".toList then [{ span := (1, 10) }] else []
  findAt _ _ _ := none

theorem signalsEngine_sound : Sound signalsEngine where
  findIter pattern text found member := by
    rw [signalsEngine] at member
    dsimp only at member
    split at member
    · rename_i gate
      obtain rfl := mem_singleton.mp member
      rw [gate.2]
      exact ⟨⟨"Q".toList, "_SIGNALS:\n".toList, by decide, by decide⟩,
        ⟨"Q_SIGNALS:".toList, "\n".toList, by decide, by decide⟩,
        fun span group => by cases group⟩
    · cases member
  findAt _ _ _ _ member := by cases member
  indented _ _ _ member := by cases member

/-- An access line with a macro of signals. -/
theorem pre_parse_keeps_places_signals :
    ∃ out, tryPreParseCppSource signalsEngine "Q_SIGNALS:\n".toList "tab.h" = some out ∧
      preParseCppSource signalsEngine "Q_SIGNALS:\n".toList "tab.h" = out ∧ KeepsPlaces "Q_SIGNALS:\n".toList out :=
  pre_parse_keeps_places signalsEngine_sound "Q_SIGNALS:\n".toList "tab.h"

end Signals

end Codegraph.Cpp
