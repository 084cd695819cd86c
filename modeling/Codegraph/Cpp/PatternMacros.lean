import Codegraph.Cpp.AttributeMacros

/- This file blanks the macros and dialect constructs that patterns find in a C++ source. -/

namespace Codegraph.Cpp
open Utf8 Repainting Strides CodeClasses RegexEngine Scanning List
open Flattening (isPad isUpper isWord trim)

section InlineMacros

/-- The known inline-specifier macros. -/
def cppInlineMacros : List String :=
  ["FORCEINLINE_DEBUGGABLE", "FORCENOINLINE", "FORCEINLINE", "PUGI__FN_NO_INLINE", "PUGI__FN", "PUGIXML_FUNCTION",
    "_ALWAYS_INLINE_", "_FORCE_INLINE_", "BOOST_FORCEINLINE", "BOOST_NOINLINE", "Q_INVOKABLE", "Q_SCRIPTABLE",
    "Q_ALWAYS_INLINE", "Q_SLOT", "Q_SIGNAL", "FOLLY_ALWAYS_INLINE", "FOLLY_NOINLINE", "ABSL_ATTRIBUTE_ALWAYS_INLINE",
    "ABSL_ATTRIBUTE_NOINLINE", "LLVM_ATTRIBUTE_ALWAYS_INLINE", "LLVM_ATTRIBUTE_NOINLINE", "V8_INLINE", "V8_NOINLINE",
    "EIGEN_STRONG_INLINE", "EIGEN_ALWAYS_INLINE", "EIGEN_DEVICE_FUNC", "RAPIDJSON_FORCEINLINE", "MOZ_ALWAYS_INLINE",
    "MOZ_NEVER_INLINE", "PROTOBUF_ALWAYS_INLINE", "PROTOBUF_NOINLINE", "FMT_CONSTEXPR20", "FMT_CONSTEXPR", "FMT_INLINE",
    "JSON_HEDLEY_ALWAYS_INLINE", "JSON_HEDLEY_NEVER_INLINE", "HEDLEY_ALWAYS_INLINE", "HEDLEY_NEVER_INLINE",
    "GLM_FUNC_QUALIFIER", "GLM_FUNC_DECL", "GLM_CONSTEXPR", "GLM_INLINE", "SIMD_FORCE_INLINE", "SK_ALWAYS_INLINE",
    "CV_ALWAYS_INLINE", "CV_INLINE", "EA_FORCE_INLINE", "EA_NOINLINE", "CC_INLINE", "NEVER_INLINE", "G_INLINE_FUNC",
    "SQLITE_PRIVATE", "SQLITE_API", "STDMETHODCALLTYPE", "WINAPIV", "WINAPI", "APIENTRY", "ALWAYS_INLINE",
      "FORCE_INLINE",
    "NOINLINE"]

/-- Any of the macros as a whole word, the longest first. -/
def inlineMacros : String :=
  "\\b(?:" ++ "|".intercalate (cppInlineMacros.mergeSort fun first second => second.length ≤ first.length) ++ ")\\b"

/-- Known inline-specifier macros before a type or name are blanked. -/
def blankCppInlineMacros (engine : Engine) (source : List Char) : List Char :=
  if !cppInlineMacros.any (contains source) then source
  else
    let bytes := units source
    let classes := cppCodeClasses bytes
    let found := (engine.findIter inlineMacros source).filter fun found =>
      let after := found.span.2
      let first := skipSpace bytes after
      classes[found.span.1]? ≠ some .literal && first > after && isIdentStart (byteAt bytes first)
    blankSpans source (found.map (·.span))

end InlineMacros

section Shared

def allCode (mask : List Bool) (span : Span) : Bool :=
  (List.range' span.1 (span.2 - span.1)).all fun place => mask[place]?.getD false

/-- The end of a parenthesis in bytes from a place on. What is no code does not count. -/
def parenEnd : List (Char × Bool) → Nat → Int → Option Nat
  | [], _, _ => none
  | (byte, isCode) :: rest, place, depth =>
    if !isCode then parenEnd rest (place + 1) depth
    else if byte = '(' then parenEnd rest (place + 1) (depth + 1)
    else if byte = ')' then if depth - 1 = 0 then some (place + 1) else parenEnd rest (place + 1) (depth - 1)
    else parenEnd rest (place + 1) depth

def balancedParenEnd (bytes : List Char) (mask : List Bool) (opening : Nat) : Option Nat :=
  if bytes.length ≠ mask.length ∨ bytes[opening]? ≠ some '(' ∨ mask[opening]? ≠ some true then none
  else parenEnd ((bytes.zip mask).drop opening) opening 0

/-- What a pass makes of the bytes of a text. Other bytes are left. -/
def onText (pass : List Char → List Char) (bytes : List Char) : List Char :=
  match fromUtf8 bytes with
  | none => bytes
  | some source => pass source

/-- What ends a parenthesis is a closing one. -/
theorem parenEnd_closing {rest : List (Char × Bool)} {place stop : Nat} {depth : Int}
    (ends : parenEnd rest place depth = some stop) :
    place < stop ∧ (rest.map Prod.fst)[stop - 1 - place]? = some ')' := by
  induction rest generalizing place depth with
  | nil => cases ends
  | cons head rest ih =>
    have step {depth : Int} (later : parenEnd rest (place + 1) depth = some stop) :
        place < stop ∧ ((head :: rest).map Prod.fst)[stop - 1 - place]? = some ')' := by
      obtain ⟨further, found⟩ := ih later
      refine ⟨by omega, ?_⟩
      rwa [List.map_cons, show stop - 1 - place = stop - 1 - (place + 1) + 1 by omega, List.getElem?_cons_succ]
    obtain ⟨byte, isCode⟩ := head
    rw [parenEnd] at ends
    split_ifs at ends
    · exact step ends
    · exact step ends
    · obtain rfl := Option.some.inj ends
      refine ⟨Nat.lt_succ_self _, ?_⟩
      rw [Nat.add_sub_cancel, Nat.sub_self]
      exact congrArg some ‹byte = ')'›
    · exact step ends
    · exact step ends

/-- What is read at the starts of the lines. -/
def overLines {β : Type} (bytes : List Char) (read : Nat → Option β) : List β :=
  (strides (bytes.length + 1) (fun line _ => some {
    next := lineStop bytes line + 1
    further := Nat.lt_succ_of_le (le_lineStop line)
    found := (read line).toList }) 0).1

variable {bytes : List Char} {mask : List Bool} {opening stop : Nat}

theorem mem_overLines {β : Type} {read : Nat → Option β} {item : β} (member : item ∈ overLines bytes read) :
    ∃ line, (line = 0 ∨ bytes[line - 1]? = some '\n') ∧ read line = some item := by
  obtain ⟨line, inside, taken, opens, goes, found⟩ := mem_strides_of
    (fun line => line ≤ bytes.length → line = 0 ∨ bytes[line - 1]? = some '\n') (fun _ => .inl rfl) (by
      intro here inside taken _ goes within
      obtain rfl := Option.some.inj goes
      exact .inr (newline_lineStop within)) member
  obtain rfl := Option.some.inj goes
  exact ⟨line, opens (Nat.lt_succ_iff.mp inside), Option.mem_toList.mp found⟩

/-- A parenthesis ends behind its closing. -/
theorem balancedParenEnd_closing (ends : balancedParenEnd bytes mask opening = some stop) :
    opening < stop ∧ bytes[stop - 1]? = some ')' := by
  rw [balancedParenEnd] at ends
  split at ends
  · cases ends
  · rename_i checked
    obtain ⟨further, found⟩ := parenEnd_closing ends
    have same : bytes.length = mask.length := by
      by_contra other
      exact checked (.inl other)
    refine ⟨further, ?_⟩
    rw [List.map_drop, List.map_fst_zip (Nat.le_of_eq same), List.getElem?_drop] at found
    rwa [show opening + (stop - 1 - opening) = stop - 1 by omega] at found

end Shared

section Unreal

variable (engine : Engine) (source : List Char)

def apiPrefix : String := "\\b[A-Z][A-Z0-9_]*(?:_API|_EXPORT|_ABI)\\b"

/-- Space and then a declaration are behind a place. -/
def declares (stop : Nat) : Bool :=
  let behind := (sliceFrom source stop).getD []
  behind.head?.any isWhitespace && (behind.dropWhile isWhitespace).head?.any fun c => isAlphabetic c || c = '_'

/-- Visibility macros in front of a member are blanked. -/
def blankCppApiPrefixMacros : List Char → List Char :=
  onText fun source =>
    if !(contains source "_API" || contains source "_EXPORT" || contains source "_ABI") then units source
    else
      let mask := cppCodeMask source
      let found := (engine.findIter apiPrefix source).filter fun found => allCode mask found.span &&
        declares source found.span.2
      blankAll (found.map (·.span)) (units source)

def inlineAnnotation : String := "\\b(?:UMETA|UPARAM|UE_DEPRECATED\\w*)\\s*\\("

def inlineAnnotationStride (start : Nat) : Option (Stride Span start) :=
  let mask := cppCodeMask source
  match engine.findAt inlineAnnotation source start with
  | none => none
  | some found =>
    if !allCode mask found.span then some { next := found.span.2, further := found.further }
    else match ends : balancedParenEnd (units source) mask (found.span.2 - 1) with
      | some stop => some {
          next := stop
          further := by
            have behind := found.further
            have closing := (balancedParenEnd_closing ends).1
            omega
          found := [(found.span.1, stop)] }
      | none => none

/-- Annotation macros in the middle of a line are blanked. -/
def blankCppInlineAnnotationMacros : List Char → List Char :=
  onText fun source =>
    if !(contains source "UMETA" || contains source "UPARAM" || contains source "UE_DEPRECATED") then units source
    else
      let spans := (strides ((units source).length + 1) (fun start _ => inlineAnnotationStride engine source start) 0).1
      blankAll spans (units source)

def annotationGate : String := "(?m)^[ \\t]*[A-Z][A-Z0-9_]\x7b2,\x7d\\s*\\("

def annotationCall : String := "(?m)^([ \\t]*)([A-Z][A-Z0-9_]\x7b2,\x7d)(\\s*)\\("

def startsDeclaration (stop : Nat) : Bool :=
  let byte := ((units source).drop stop).dropWhile isAsciiWhitespace
  byte.head?.any fun byte => isAlphabetic byte || byte = '_' || byte = '~' || byte = '#'

/-- The place of a macro behind the indentation of its line. -/
def behindIndent (found : Match) : Nat := found.span.1 + (found.group.map fun group => group.2 - group.1).getD 0

def annotationStride (start : Nat) : Option (Stride Span start) :=
  let mask := cppCodeMask source
  match engine.findAt annotationCall source start with
  | none => none
  | some found =>
    if !allCode mask (behindIndent found.toMatch, found.span.2) then
      some { next := found.span.2, further := found.further }
    else match ends : balancedParenEnd (units source) mask (found.span.2 - 1) with
      | some stop => some {
          next := stop
          further := by
            have behind := found.further
            have closing := (balancedParenEnd_closing ends).1
            omega
          found := if startsDeclaration source stop then [(behindIndent found.toMatch, stop)] else [] }
      | none => some { next := found.span.2, further := found.further }

/-- Annotation macros at the head of a line in front of a declaration are blanked. -/
def blankCppAnnotationMacroCalls : List Char → List Char :=
  onText fun source =>
    if !engine.isMatch annotationGate source then units source
    else
      let spans := (strides ((units source).length + 1) (fun start _ => annotationStride engine source start) 0).1
      blankAll spans (units source)

end Unreal

section Dialects

variable (engine : Engine)

def metalAttribute : String :=
  "\\[\\[\\s*[A-Za-z_]\\w*(?:\\s*\\([^()\\n]*\\))?(?:\\s*,\\s*[A-Za-z_]\\w*(?:\\s*\\([^()\\n]*\\))?)*\\s*\\]\\]"

/-- The spans in which a pattern matches code alone. -/
def codeMatches (pattern : String) (source : List Char) : List Span :=
  ((engine.findIter pattern source).filter fun found => allCode (cppCodeMask source) found.span).map (·.span)

/-- The attributes of Metal are blanked. -/
def blankMetalAttributes : List Char → List Char :=
  onText fun source =>
    if !contains source "[[" then units source else blankAll (codeMatches engine metalAttribute source) (units source)

def launchBounds : String := "\\b__launch_bounds__\\s*\\([^()\\n]*\\)"

def cudaSpecifier : String :=
  "\\b__(?:global|device|host|constant|shared|managed|grid_constant|forceinline|noinline|launch_bounds)__\\b"

def launchConfig : String := "<<<[^;]\x7b0,400\x7d?>>>"

def bracesFrom : List Char → Int → Bool
  | [], depth => depth = 0
  | byte :: rest, depth =>
    if byte = '\x7b' then bracesFrom rest (depth + 1)
    else if byte = '\x7d' then if depth - 1 < 0 then false else bracesFrom rest (depth - 1)
    else bracesFrom rest depth

def isBraceBalanced (bytes : List Char) : Bool := bracesFrom bytes 0

/-- The specifiers and the launch configurations of CUDA are blanked. -/
def blankCudaConstructs : List Char → List Char :=
  onText fun source =>
    let specifiers :=
      if contains source "__" then codeMatches engine launchBounds source ++ codeMatches engine cudaSpecifier source
        else []
    let launches :=
      if contains source "<<<" then
        (codeMatches engine launchConfig source).filter fun span =>
          isBraceBalanced (between (units source) span.1 span.2)
      else []
    blankAll (specifiers ++ launches) (units source)

def looksLikeCudaSource (source : List Char) : Bool :=
  contains source "__global__" || contains source "__device__" || contains source "__constant__" ||
    contains source "cudaStream_t"

def interfaceKeyword : String := "interface"

/-- The place of an `interface` keyword that opens the line at a place. -/
def interfaceAt (mask : List Bool) (src : List Char) (line : Nat) : Option Nat :=
  let lineEnd := lineStop src line
  let start := skipBlanks src line
  let behind := start + interfaceKeyword.length
  let next := skipBlanks src behind
  let word := (src.drop next).takeWhile isWord
  if behind ≤ lineEnd ∧ between src start behind = interfaceKeyword.toList ∧ allCode mask (start, behind) ∧
    next > behind ∧
      isIdentStart (byteAt src next) ∧
        !(["class", "struct", "union", "enum"].any (fun keyword => keyword.toList = word)) then
    some start
  else none

def structField : List Char := "struct   ".toList

/-- An `interface` keyword at the head of a line becomes `struct` and three spaces. -/
def blankMsvcComInterfaceKeyword : List Char → List Char :=
  onText fun source =>
    if !contains source interfaceKeyword then units source
    else
      let src := units source
      overwriteAll ((overLines src (interfaceAt (cppCodeMask source) src)).map fun start => (start, structField)) src

end Dialects

section LeadingAttributes

/-- The constructs that prove that a macro is an attribute. -/
def cAttributeConstructs : List String := ["__attribute__", "__attribute", "__declspec", "__asm", "__pragma", "_Pragma"]

def withoutReturn (line : List Char) : List Char := if line.getLast? = some '\r' then line.dropLast else line

/-- The lines of a text without the line breaks that end them. -/
def linesOf (source : List Char) : List (List Char) :=
  let parts := source.splitOn '\n'
  parts.dropLast.map withoutReturn ++ (parts.getLast?.filter (· ≠ [])).toList

def stripPrefix (start : String) (text : List Char) : Option (List Char) :=
  if start.toList.isPrefixOf text then some (text.drop start.length) else none

/-- The name of a macro without arguments that a line defines as an attribute or as nothing. -/
def attributeDefine (line : List Char) : Option (List Char) := do
  let rest ← stripPrefix "#" (line.dropWhile isWhitespace)
  let rest ← stripPrefix "define" (rest.dropWhile isWhitespace)
  if !rest.head?.any isPad then none
  else
    let rest := rest.dropWhile isWhitespace
    let name := rest.takeWhile isWord
    let replacement := rest.dropWhile isWord
    let proves := (trim replacement).isEmpty || cAttributeConstructs.any (contains (trim replacement))
    if name.isEmpty || name.head?.any isAsciiDigit || replacement.head? = some '(' || !proves then none else some name

def attributeLikeDefines (source : List Char) : List (List Char) :=
  if !contains source "#define" then [] else (linesOf source).filterMap attributeDefine

def cLeadingAttr : String := "(?m)^[ \\t]*([A-Za-z_]\\w*)\\s+[A-Za-z_]\\w*[\\s*]+[A-Za-z_]\\w*\\s*\\("

/-- The macros in front of a function that a source defines as attributes. -/
def leadingAttrSpans (engine : Engine) (source : List Char) : List Span :=
  ((engine.findIter cLeadingAttr source).filterMap (·.group)).filter fun span =>
    allCode (cppCodeMask source) span && (slice source span.1 span.2).any (attributeLikeDefines source).contains

/-- Macros that a source defines as attributes are blanked in front of a function. -/
def blankCLeadingAttrMacros (engine : Engine) (source : List Char) : List Char :=
  if (attributeLikeDefines source).isEmpty then source
  else
    let spans := leadingAttrSpans engine source
    if spans.isEmpty then source
    else
      let written := overwriteAll (spans.map fun span => (span.1, List.replicate (span.2 - span.1) ' ')) (units source)
      (fromUtf8 written).getD source

end LeadingAttributes

section Blanking

variable {engine : Engine} (onChars : engine.OnChars) (source : List Char)

/-- A pass has written a text over the bytes of a source. -/
def Writes (Allowed : Nat → Char → Prop) (source bytes : List Char) : Prop :=
  ∃ out, bytes = units out ∧ Repaints Allowed (units source) bytes

/-- A pass over bytes has only written spaces over a source. -/
abbrev BlanksBytes (source bytes : List Char) : Prop := Writes (fun _ c => c = ' ') source bytes

variable {source} in
theorem blanks_blankAll {spans : List Span} (all : ∀ span ∈ spans, AtChar source span.1 ∧ AtChar source span.2) :
    BlanksBytes source (blankAll spans (units source)) := by
  obtain ⟨out, written, -⟩ := keepsText_blankAll all
  exact ⟨out, written.symm, repaints_blankAll spans (units source)⟩

theorem blanks_same : BlanksBytes source (units source) := ⟨source, rfl, .refl _ _⟩

@[simp] theorem onText_units (pass : List Char → List Char) : onText pass (units source) = pass source := by
  rw [onText, fromUtf8_units]

variable {source} in
theorem atChar_closing {mask : List Bool} {opening stop : Nat}
    (ends : balancedParenEnd (units source) mask opening = some stop) : AtChar source stop := by
  obtain ⟨further, closes⟩ := balancedParenEnd_closing ends
  have behind := (atChar_ascii closes (by decide)).2
  rwa [Nat.sub_add_cancel (by omega)] at behind

include onChars

/-- The spans of matches are whole characters. -/
theorem atChar_matches {pattern : String} {keep : Match → Bool} {span : Span}
    (member : span ∈ ((engine.findIter pattern source).filter keep).map (·.span)) :
    AtChar source span.1 ∧ AtChar source span.2 := by
  obtain ⟨found, kept, rfl⟩ := mem_map.mp member
  have chars := onChars.findIter pattern source found (mem_filter.mp kept).1
  exact ⟨chars.opens, chars.closes⟩

theorem blanked_inline : Blanked source (blankCppInlineMacros engine source) := by
  rw [blankCppInlineMacros]
  split
  · exact .refl source
  · exact repaints_blankSpans fun span member => atChar_matches onChars source member

theorem blanks_apiPrefix : BlanksBytes source (blankCppApiPrefixMacros engine (units source)) := by
  rw [blankCppApiPrefixMacros, onText_units]
  split
  · exact blanks_same source
  · exact blanks_blankAll fun span member => atChar_matches onChars source member

/-- Blanking inline annotations writes blanks only. -/
theorem blanks_inlineAnnotation : BlanksBytes source (blankCppInlineAnnotationMacros engine (units source)) := by
  rw [blankCppInlineAnnotationMacros, onText_units]
  split
  · exact blanks_same source
  · refine blanks_blankAll fun span member => ?_
    obtain ⟨start, inside, taken, -, goes, here⟩ := mem_strides member
    rw [inlineAnnotationStride] at goes
    split at goes
    · cases goes
    · rename_i found searched
      have chars := onChars.findAt _ _ _ found searched
      split at goes
      · obtain rfl := Option.some.inj goes
        cases here
      · split at goes
        · rename_i stop ends
          obtain rfl := Option.some.inj goes
          obtain rfl := mem_singleton.mp here
          exact ⟨chars.opens, atChar_closing ends⟩
        · cases goes

/-- A group that opens a match of the calls ends where the indentation does. -/
theorem blanks_annotationCalls
    (indented : ∀ text start, ∀ found ∈ engine.findAt annotationCall text start, ∀ group ∈ found.group,
      group.1 = found.span.1) : BlanksBytes source (blankCppAnnotationMacroCalls engine (units source)) := by
  rw [blankCppAnnotationMacroCalls, onText_units]
  split
  · exact blanks_same source
  · refine blanks_blankAll fun span member => ?_
    obtain ⟨start, inside, taken, -, goes, here⟩ := mem_strides member
    rw [annotationStride] at goes
    split at goes
    · cases goes
    · rename_i found searched
      have chars := onChars.findAt _ _ _ found searched
      split at goes
      · obtain rfl := Option.some.inj goes
        cases here
      · split at goes
        · rename_i stop ends
          obtain rfl := Option.some.inj goes
          dsimp only at here
          split at here
          · obtain rfl := mem_singleton.mp here
            refine ⟨?_, atChar_closing ends⟩
            show AtChar source (behindIndent found.toMatch)
            rw [behindIndent]
            cases group : found.group with
            | none => exact chars.opens
            | some span =>
              have first := indented _ _ found searched span group
              rw [Option.map_some, Option.getD_some, ← first]
              rcases Nat.le_total span.1 span.2 with longer | shorter
              · rw [Nat.add_sub_cancel' longer]
                exact (chars.group span group).2
              · rw [Nat.sub_eq_zero_of_le shorter]
                exact (chars.group span group).1
          · cases here
        · obtain rfl := Option.some.inj goes
          cases here

theorem blanks_metal : BlanksBytes source (blankMetalAttributes engine (units source)) := by
  rw [blankMetalAttributes, onText_units]
  split
  · exact blanks_same source
  · exact blanks_blankAll fun span member => atChar_matches onChars source member

theorem blanks_cuda : BlanksBytes source (blankCudaConstructs engine (units source)) := by
  rw [blankCudaConstructs, onText_units]
  refine blanks_blankAll fun span member => ?_
  rcases mem_append.mp member with specifier | launch
  · split at specifier
    · rcases mem_append.mp specifier with bounds | word
      · exact atChar_matches onChars source bounds
      · exact atChar_matches onChars source word
    · cases specifier
  · split at launch
    · exact atChar_matches onChars source (mem_filter.mp launch).1
    · cases launch

end Blanking

section Interfaces

variable (source : List Char) {bytes : List Char} {start : Nat}

/-- A place behind only blanks on its line. -/
def LeadsLine (bytes : List Char) (start : Nat) : Prop :=
  ∃ line ≤ start, (line = 0 ∨ bytes[line - 1]? = some '\n') ∧ ∀ place, line ≤ place → place < start →
    isPad (byteAt bytes place)

/-- An `interface` token that leads its line. -/
structure InterfaceToken (bytes : List Char) (start : Nat) : Prop where
  leads : LeadsLine bytes start
  token : ∀ k c, interfaceKeyword.toList[k]? = some c → bytes[start + k]? = some c

/-- A byte of a keyword that is written from a place on. -/
def InKeyword (keyword : String) (start i : Nat) (c : Char) : Prop := start ≤ i ∧ keyword.toList[i - start]? = some c

theorem skipBlanks_pads {line place : Nat} (behind : line ≤ place) (before : place < skipBlanks bytes line) :
    isPad (byteAt bytes place) := by
  have run : place - line < ((bytes.drop line).takeWhile isPad).length := by
    rw [skipBlanks] at before
    omega
  have same := ( takeWhile_prefix isPad (l := bytes.drop line)).getElem run
  have bound := ( takeWhile_prefix isPad (l := bytes.drop line)).length_le
  rw [length_drop] at bound
  have found : byteAt bytes place = ((bytes.drop line).takeWhile isPad)[place - line] := by
    rw [same, getElem_drop, byteAt, getElem?_eq_getElem (by omega), Option.getD_some]
    congr 1
    omega
  rw [found]
  exact mem_takeWhile_imp (getElem_mem run)

theorem get_between {word : List Char} {stop k : Nat} {c : Char} (same : between bytes start stop = word)
    (found : word[k]? = some c) : bytes[start + k]? = some c := by
  rw [← same, between, getElem?_take] at found
  split at found
  · rwa [getElem?_drop] at found
  · cases found

theorem interfaceAt_token {mask : List Bool} {line : Nat} (first : line = 0 ∨ bytes[line - 1]? = some '\n')
    (found : interfaceAt mask bytes line = some start) : InterfaceToken bytes start := by
  rw [interfaceAt] at found
  split at found
  · rename_i checked
    obtain rfl := Option.some.inj found
    exact ⟨⟨line, le_skipBlanks bytes line, first, fun place => skipBlanks_pads⟩, fun k c => get_between checked.2.1⟩
  · cases found

/-- What the `interface` pass writes: spaces, and `struct` over an `interface` token. -/
def InterfaceByte (bytes : List Char) (i : Nat) (c : Char) : Prop :=
  c = ' ' ∨ ∃ start, InterfaceToken bytes start ∧ InKeyword "struct" start i c

theorem interfaceByte_solid (i : Nat) (c : Char) (written : InterfaceByte bytes i c) : isBreak c = false := by
  rcases written with rfl | ⟨start, -, -, found⟩
  · rfl
  · have plain : ∀ d ∈ "struct".toList, isBreak d = false := by simp [isBreak]
    exact plain c (mem_of_getElem? found)

theorem structField_eq : structField = "struct".toList ++ List.replicate 3 ' ' := by decide

theorem structField_ascii : ∀ c ∈ structField, c.toNat < 128 := by
  have all : structField.all (fun c => c.toNat < 128) = true := by decide
  exact fun c member => of_decide_eq_true (all_eq_true.mp all c member)

theorem length_structField : structField.length = interfaceKeyword.toList.length := by decide

variable {source} in
theorem interfaceToken_atChar (token : InterfaceToken (units source) start) :
    AtChar source start ∧ AtChar source (start + structField.length) := by
  have first := token.token 0 'i' (by decide)
  have last := (atChar_ascii (token.token 8 'e' (by decide)) (by decide)).2
  have length : structField.length = 8 + 1 := by decide
  exact ⟨(atChar_ascii first (by decide)).1, by rwa [length]⟩

theorem interfaceToken_solid {k : Nat} {b : Char} (token : InterfaceToken bytes start)
    (inside : k < structField.length) (found : bytes[start + k]? = some b) : isBreak b = false := by
  rw [length_structField] at inside
  rw [token.token k _ (getElem?_eq_getElem inside)] at found
  have plain : ∀ d ∈ interfaceKeyword.toList, isBreak d = false := by simp [interfaceKeyword, isBreak]
  exact Option.some.inj found ▸ plain _ (getElem_mem inside)

/-- Only the tokens of interfaces are written over. -/
theorem writes_structs {starts : List Nat} (tokens : ∀ start ∈ starts, InterfaceToken (units source) start) :
    Writes (InterfaceByte (units source)) source
      (overwriteAll (starts.map fun start => (start, structField)) (units source)) := by
  have keeps : KeepsText source (overwriteAll (starts.map fun start => (start, structField)) (units source)) := by
    refine keepsText_overwriteAll (fun field member => ?_) fun field member => ?_
    · obtain ⟨start, -, rfl⟩ := mem_map.mp member
      exact structField_ascii
    · obtain ⟨start, visited, rfl⟩ := mem_map.mp member
      exact interfaceToken_atChar (tokens start visited)
  obtain ⟨out, written, -⟩ := keeps
  refine ⟨out, written.symm, repaints_overwriteAll interfaceByte_solid (fun field member k b inside here => ?_)
    fun field member i c behind new => ?_⟩
  · obtain ⟨start, visited, rfl⟩ := mem_map.mp member
    exact interfaceToken_solid (tokens start visited) inside here
  · obtain ⟨start, visited, rfl⟩ := mem_map.mp member
    rw [structField_eq] at new
    exact (get_padded new).imp_right fun here => ⟨start, tokens start visited, behind, here⟩

theorem writes_interface :
    Writes (InterfaceByte (units source)) source (blankMsvcComInterfaceKeyword (units source)) := by
  rw [blankMsvcComInterfaceKeyword, onText_units]
  split
  · exact ⟨source, rfl, .refl _ _⟩
  · refine writes_structs source fun start visited => ?_
    obtain ⟨line, first, found⟩ := mem_overLines visited
    exact interfaceAt_token first found

end Interfaces

section Attributes

variable {engine : Engine} (onChars : engine.OnChars) (source : List Char)

theorem isWord_plain {c : Char} (word : isWord c) : c.toNat < 128 ∧ isBreak c = false := by
  have bounds : 48 ≤ c.toNat ∧ c.toNat ≤ 122 := by
    rw [isWord, Bool.or_eq_true, Bool.or_eq_true, Bool.or_eq_true, isUpper, isAsciiDigit] at word
    simp only [Bool.and_eq_true, decide_eq_true_eq] at word
    rcases word with ((⟨low, high⟩ | ⟨low, high⟩) | ⟨low, high⟩) | rfl
    · exact ⟨Nat.le_trans (by decide) (show 65 ≤ c.toNat from low),
        Nat.le_trans (show c.toNat ≤ 90 from high) (by decide)⟩
    · exact ⟨Nat.le_trans (by decide) (show 97 ≤ c.toNat from low), high⟩
    · exact ⟨low, Nat.le_trans (show c.toNat ≤ 57 from high) (by decide)⟩
    · decide
  exact ⟨by omega, solid_of_bounds bounds.1⟩

theorem attributeDefine_word {line name : List Char} (found : attributeDefine line = some name) :
    ∀ c ∈ name, isWord c := by
  obtain ⟨signed, -, found⟩ := Option.bind_eq_some_iff.mp found
  obtain ⟨rest, -, found⟩ := Option.bind_eq_some_iff.mp found
  split at found
  · cases found
  · dsimp only at found
    split at found
    · cases found
    · obtain rfl := Option.some.inj found
      exact fun c member => mem_takeWhile_imp member

variable {source} in
/-- The bytes of a span that is blanked are those of a word. -/
theorem leadingAttr_plain {span : Span} (opens : AtChar source span.1) (closes : AtChar source span.2)
    (named : (slice source span.1 span.2).any (attributeLikeDefines source).contains) {k : Nat} {b : Char}
    (inside : k < span.2 - span.1) (found : (units source)[span.1 + k]? = some b) : isBreak b = false := by
  obtain ⟨word, sliced, known⟩ := (Option.any_eq_true _ _).mp named
  have spelled : ∀ c ∈ word, isWord c := by
    rw [contains_iff_mem, attributeLikeDefines] at known
    split at known
    · cases known
    · obtain ⟨line, -, defined⟩ := mem_filterMap.mp known
      exact attributeDefine_word defined
  have ascii : units word = word := units_ascii fun c member => (isWord_plain (spelled c member)).1
  have same := slice_chunk opens closes sliced
  rw [ascii] at same
  have here : word[k]? = some b := by rw [← same, getElem?_take_of_lt inside, getElem?_drop, found]
  exact (isWord_plain (spelled b (mem_of_getElem? here))).2

include onChars

/-- The pass writes nothing but spaces. -/
theorem blanked_cLeadingAttr : Blanked source (blankCLeadingAttrMacros engine source) := by
  rw [blankCLeadingAttrMacros]
  split
  · exact .refl source
  · dsimp only
    split
    · exact .refl source
    · have places {span : Span} (member : span ∈ leadingAttrSpans engine source) :
          AtChar source span.1 ∧ AtChar source span.2 ∧
            (slice source span.1 span.2).any (attributeLikeDefines source).contains := by
        obtain ⟨grouped, kept⟩ := mem_filter.mp member
        obtain ⟨found, matched, group⟩ := mem_filterMap.mp grouped
        have chars := (onChars.findIter _ _ found matched).group span group
        exact ⟨chars.1, chars.2, (Bool.and_eq_true_iff.mp kept).2⟩
      have keeps : KeepsText source (overwriteAll
          ((leadingAttrSpans engine source).map fun span => (span.1, replicate (span.2 - span.1) ' '))
            (units source)) := by
        refine keepsText_overwriteAll (fun field member => ?_) fun field member => ?_
        · obtain ⟨span, -, rfl⟩ := mem_map.mp member
          intro c space
          obtain rfl := eq_of_mem_replicate space
          decide
        · obtain ⟨span, spanned, rfl⟩ := mem_map.mp member
          have ends := places spanned
          rw [length_replicate]
          rcases Nat.le_total span.1 span.2 with longer | shorter
          · exact ⟨ends.1, by rw [Nat.add_sub_cancel' longer]; exact ends.2.1⟩
          · exact ⟨ends.1, by rw [Nat.sub_eq_zero_of_le shorter]; exact ends.1⟩
      obtain ⟨out, written, -⟩ := keeps
      rw [Blanked, ← written, fromUtf8_units, Option.getD_some, written]
      refine repaints_overwriteAll (by rintro i c rfl; rfl) (fun field member k b inside here => ?_)
        fun field member i c _ new => ?_
      · obtain ⟨span, spanned, rfl⟩ := mem_map.mp member
        have ends := places spanned
        rw [length_replicate] at inside
        exact leadingAttr_plain ends.1 ends.2.1 ends.2.2 inside here
      · obtain ⟨span, -, rfl⟩ := mem_map.mp member
        exact eq_of_mem_replicate (mem_of_getElem? new)

end Attributes

end Codegraph.Cpp
