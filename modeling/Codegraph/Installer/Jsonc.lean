import Codegraph.Library.JsonRecoding
import Codegraph.Installer.ConfigFiles

/- This file models how the installer reads JSON configurations with comments and writes them back. -/

namespace Codegraph.Installer
open Codegraph.Watch.Scope (Text)
open JsonTokens

section Stripping

def isAsciiWhitespace (c : Char) : Bool := c = '\t' || c = '\n' || c = '\x0c' || c = '\r' || c = ' '

/-- The scan goes over bytes and pushes each of them as a character. -/
def dropTrailingCommas (text : Text) : Text :=
  dropCommasOutside charMarks charClosers isAsciiWhitespace .outside (Utf8.units text)

/-- The scan goes over bytes and pushes each of them as a character. -/
def stripJsonc (text : Text) : Text := dropTrailingCommas (dropComments charMarks .outside (Utf8.units text))

/-- A character of a string after both scans. -/
def respelled (c : Char) : Text := (Utf8.unitsOf c).flatMap Utf8.unitsOf

theorem units_eq_flatMap (text : Text) : Utf8.units text = text.flatMap Utf8.unitsOf := by
  induction text with
  | nil => rfl
  | cons c text ih => rw [Utf8.units_cons, ih, List.flatMap_cons]

theorem widens_unitsOf : Widens Utf8.unitsOf where
  ascii _ small := Utf8.unitsOf_ascii small
  long c large := by
    rw [Utf8.length_unitsOf]
    have several : c.utf8Size ≠ 1 := fun one => large (Nat.lt_succ_of_le (Char.utf8Size_eq_one_iff.mp one))
    have positive := Char.utf8Size_pos c
    omega
  wide c large d member := Nat.not_lt.mpr (Utf8.unitsOf_wide (Nat.le_of_not_lt large) member)

theorem widens_respelled : Widens respelled := widens_unitsOf.twice

theorem asciiBlank : AsciiBlank isAsciiWhitespace := by
  intro c white
  simp only [isAsciiWhitespace, Bool.or_eq_true, decide_eq_true_eq] at white
  rcases white with (((rfl | rfl) | rfl) | rfl) | rfl <;> decide

theorem blank_isAsciiWhitespace : Blank isAsciiWhitespace where
  spaces c space := by
    simp only [isSpace, List.mem_cons, List.not_mem_nil, or_false, decide_eq_true_eq] at space
    rcases space with rfl | rfl | rfl | rfl <;> decide
  others c white space := by
    simp only [isAsciiWhitespace, Bool.or_eq_true, decide_eq_true_eq] at white
    rcases white with (((rfl | rfl) | rfl) | rfl) | rfl <;> revert space <;> decide
  backslash := by decide

/-- Every character outside of ASCII is respelled, and otherwise comments and trailing commas are dropped. -/
theorem stripJsonc_eq (text : Text) : stripJsonc text =
    (dropCommasOutside charMarks charClosers isAsciiWhitespace .outside
      (dropComments charMarks .outside text)).flatMap respelled := by
  rw [stripJsonc, dropTrailingCommas, units_eq_flatMap, units_eq_flatMap, widens_unitsOf.comments,
    widens_unitsOf.commas asciiBlank, widens_unitsOf.commas asciiBlank, List.flatMap_assoc]
  rfl

end Stripping

section Reading

variable {Number : Type} (reader : Reader Number) (fromStr : Text → Option (Value Number))
  (toStringPretty : Value Number → Text)

/-- The members of a JSON object, in their order. -/
abbrev Map (Number : Type) := List (Text × Value Number)

def lookup {V : Type} (key : Text) (map : List (Text × V)) : Option V :=
  (map.find? fun member => member.1 = key).map Prod.snd

/-- JSON is tried first and JSON with comments then. -/
def parseJsonObject (text : Text) : Option (Map Number) :=
  if trim text = [] then some []
  else match fromStr text with
    | some (.object map) => some map
    | _ => match fromStr (stripJsonc text) with
      | some (.object map) => some map
      | _ => none

inductive ConfigRead (Number : Type) where
  | missing
  | parsed (map : Map Number)
  | unparseable

/-- A configuration file and its copy beside it. -/
structure ConfigDisk where
  config : FileState
  backup : FileState

def readConfig (config : FileState) : ConfigRead Number :=
  match readToString config with
  | none => .missing
  | some text =>
    match parseJsonObject fromStr text with
    | some map => .parsed map
    | none => .unparseable

def readJsonFile (disk : ConfigDisk) : Map Number :=
  match readConfig fromStr disk.config with
  | .parsed map => map
  | _ => []

def backupUnparseableConfig (disk : ConfigDisk) : ConfigDisk :=
  if disk.config.isSome && ((readToString disk.config).bind (parseJsonObject fromStr)).isNone then
    { disk with backup := disk.config } else disk

def writeJsonFile (disk : ConfigDisk) (data : Map Number) : ConfigDisk :=
  { backupUnparseableConfig fromStr disk with config := atomicWriteFile (toStringPretty (.object data) ++ ['\n']) }

/-- A text is read as an object, and what is written after an edit is read back with every value that the edit kept. -/
structure KeepsValues (text : Text) (map : Map Number) : Prop where
  parsed : parseJsonObject fromStr text = some map
  written : ∀ (disk : ConfigDisk) (edit : Map Number → Map Number) (key : Text), disk.config = atomicWriteFile text →
    fromStr (toStringPretty (.object (edit map)) ++ ['\n']) = some (.object (edit map)) →
      lookup key (edit map) = lookup key map →
    lookup key (readJsonFile fromStr (writeJsonFile fromStr toStringPretty disk (edit (readJsonFile fromStr disk)))) =
      lookup key map

variable {reader fromStr toStringPretty} {text : Text} {map : Map Number} {doc : Doc}

theorem blank_of_trim (empty : trim text = []) : ∀ c ∈ text, Scanning.isWhitespace c = true := by
  intro c member
  have split_ := List.takeWhile_append_dropWhile (p := Scanning.isWhitespace) (l := text)
  rw [← split_, List.mem_append] at member
  rcases member with member | member
  · exact List.mem_takeWhile_imp member
  · have parts := trimEnd_append (trimStart text)
    rw [← trim, empty] at parts
    obtain ⟨white, blank, shape⟩ := parts
    exact blank c (by rwa [← List.nil_append white, ← shape])

/-- A blank text has no tokens. -/
theorem tokens_of_blank {tokens : List Token} (blank : ∀ c ∈ text, Scanning.isWhitespace c = true)
    (found : lexFrom true .between text = some tokens) : tokens = [] := by
  induction text generalizing tokens with
  | nil =>
    cases found
    rfl
  | cons c rest ih =>
    obtain ⟨first, next, more, started, later, rfl⟩ := step_of_lexFrom found
    have white := blank c (by simp)
    cases opens_of_start started with
    | plain other quote slash alike =>
      rw [ih (fun d member => blank d (by simp [member])) later, List.append_nil]
      cases starts_of_start alike with
      | space => rfl
      | punct space => simp [blank_eq blank_isWhitespace alike, space] at white
    | quote => exact absurd white (by decide)
    | letter letter => simp [not_isWhitespace_of_isLetter letter] at white
    | slash => exact absurd white (by decide)

/-- A text of a document is not blank. -/
theorem trim_ne_nil (spelled : commentedDoc text = some doc) : trim text ≠ [] := by
  intro empty
  obtain ⟨tokens, read, parsed⟩ := Option.bind_eq_some_iff.mp spelled
  obtain rfl := tokens_of_blank (blank_of_trim empty) read
  cases parsed

theorem commentedDoc_of_readText {value : Value Number} (read : readText reader text = some value) :
    ∃ doc, lex text = some doc.tokens ∧ commentedDoc text = some doc ∧ doc.value reader = some value := by
  obtain ⟨doc, parsed, meant⟩ := Option.bind_eq_some_iff.mp read
  obtain ⟨tokens, lexed, parsed⟩ := Option.bind_eq_some_iff.mp parsed
  obtain rfl := parse_eq_some_iff.mp parsed
  exact ⟨doc, lexed, commentedDoc_of_lex lexed, meant⟩

/-- A text that holds its object with comments or trailing commas is no JSON text. -/
theorem readText_commented (spelled : commentedDoc text = some doc) (commented : lex text ≠ some doc.tokens) :
    readText reader text = none := by
  rw [Option.eq_none_iff_forall_ne_some]
  intro value found
  obtain ⟨other, plain, again, -⟩ := commentedDoc_of_readText found
  obtain rfl : other = doc := Option.some.inj (again.symm.trans spelled)
  exact commented plain

/-- The stripped text is read as the commented document with its texts respelled. -/
theorem fromStr_stripJsonc (reads : ∀ text, fromStr text = readText reader text)
    (spelled : commentedDoc text = some doc) :
    fromStr (stripJsonc text) = (doc.rewrite (List.flatMap respelled)).value reader := by
  have same : doc.rewrite id = doc := Doc.rewrite_eq_self fun _ _ => rfl
  have plain := same ▸ lex_sieve sieve_dropCommasOutside blank_isAsciiWhitespace spelled
  have recoded : lex
    ((dropCommasOutside charMarks charClosers isAsciiWhitespace .outside (dropComments charMarks .outside text)).flatMap
      respelled) = some (doc.tokens.map (rewriteToken (List.flatMap respelled))) :=
    widens_respelled.tokens (show Mode.between.Plain from trivial) plain
  rw [reads, stripJsonc_eq, readText, recoded, Option.bind_some, Doc.parse_map_rewriteToken, Option.bind_some]

/-- An object whose text has neither comments nor trailing commas, or no string with a character outside of ASCII. -/
def Readable (text : Text) (doc : Doc) : Prop :=
  lex text = some doc.tokens ∨ ∀ body, .string body ∈ doc.tokens → ∀ c ∈ body, c.toNat < 128

theorem parsed_plain (reads : ∀ text, fromStr text = readText reader text) (plain : lex text = some doc.tokens)
    (valid : doc.value reader = some (.object map)) : parseJsonObject fromStr text = some map := by
  have found : fromStr text = some (.object map) := by
    rw [reads, readText_of_lex plain, valid]
  rw [parseJsonObject, if_neg (trim_ne_nil (commentedDoc_of_lex plain)), found]

theorem parsed_commented (reads : ∀ text, fromStr text = readText reader text) (spelled : commentedDoc text = some doc)
    (commented : lex text ≠ some doc.tokens) : parseJsonObject fromStr text = some map ↔
      (doc.rewrite (List.flatMap respelled)).value reader = some (.object map) := by
  rw [parseJsonObject, if_neg (trim_ne_nil spelled), reads text, readText_commented spelled commented,
    fromStr_stripJsonc reads spelled]
  rcases (doc.rewrite (List.flatMap respelled)).value reader with _ | value
  · simp
  · cases value <;> simp

theorem readConfig_write (config : Text) : readConfig fromStr (atomicWriteFile config) =
    match parseJsonObject fromStr config with
    | some map => .parsed map
    | none => .unparseable := by
  rw [readConfig, readToString_write]

/-- What is read as it was is also written back as it was. -/
theorem keepsValues_iff (reads : ∀ text, fromStr text = readText reader text) :
    KeepsValues fromStr toStringPretty text map ↔ parseJsonObject fromStr text = some map := by
  refine ⟨KeepsValues.parsed, fun parsed => ⟨parsed, fun disk edit key config readsBack kept => ?_⟩⟩
  have before : readJsonFile fromStr disk = map := by
    rw [readJsonFile, config, readConfig_write, parsed]
  have again : parseJsonObject fromStr (toStringPretty (.object (edit map)) ++ ['\n']) = some (edit map) := by
    obtain ⟨doc, plain, -, valid⟩ := commentedDoc_of_readText ((reads _).symm.trans readsBack)
    exact parsed_plain reads plain valid
  rw [before, readJsonFile, writeJsonFile, readConfig_write, again]
  exact kept

/-- An object keeps its values when it is readable, and where objects do not repeat their names only then. -/
theorem parse_json_object_keeps_values_iff (reads : ∀ text, fromStr text = readText reader text)
    (spelled : commentedDoc text = some doc) (valid : doc.value reader = some (.object map)) :
    (Readable text doc → KeepsValues fromStr toStringPretty text map) ∧
      (doc.Distinct → (KeepsValues fromStr toStringPretty text map ↔ Readable text doc)) := by
  have kept : Readable text doc → KeepsValues fromStr toStringPretty text map := by
    intro readable
    rw [keepsValues_iff reads]
    by_cases plain : lex text = some doc.tokens
    · exact parsed_plain reads plain valid
    · have ascii := readable.resolve_left plain
      rw [parsed_commented reads spelled plain,
        Doc.rewrite_eq_self fun body member => widens_respelled.eq_self_iff.mpr (ascii body member), valid]
  refine ⟨kept, fun distinct => ⟨fun keeps => ?_, kept⟩⟩
  by_cases plain : lex text = some doc.tokens
  · exact .inl plain
  · have after := (parsed_commented reads spelled plain).mp keeps.parsed
    exact .inr fun body member => widens_respelled.eq_self_iff.mp
      (Doc.fixed_of_valueAt widens_respelled.sharp doc reader.depth _ distinct valid after body member)

end Reading

section Examples

/-- The text `{"a":"b",}`. -/
def trailingText : Text := ['{', '"', 'a', '"', ':', '"', 'b', '"', ',', '}']

/-- How `{"a": "b"}` is written with its indentation. -/
def prettyText : Text := ['{', '\n', ' ', ' ', '"', 'a', '"', ':', ' ', '"', 'b', '"', '\n', '}']

/-- A trailing comma behind a plain string. -/
theorem trailing_comma_keeps_values :
    KeepsValues (readText wordReader) (fun _ => prettyText) trailingText [(['a'], .string ['b'])] := by
  have spelled : commentedDoc trailingText = some (.object [(['a'], .string ['b'])]) := rfl
  refine (parse_json_object_keeps_values_iff (fun _ => rfl) spelled rfl).1 (.inr fun body member => ?_)
  have texts : body = ['a'] ∨ body = ['b'] := by simpa [Doc.tokens, Doc.memberTokens, Doc.moreMembers] using member
  apply Utf8.ascii_of_all
  rcases texts with rfl | rfl <;> decide

/-- The text `{"a":"é",}`. -/
def accentedText : Text := ['{', '"', 'a', '"', ':', '"', 'é', '"', ',', '}']

/-- An accent behind which a trailing comma follows is read as four other characters. -/
theorem accent_is_respelled : commentedDoc accentedText = some (.object [(['a'], .string ['é'])]) ∧
    parseJsonObject (readText wordReader) accentedText =
      some [(['a'], .string ['\u00c3', '\u0083', '\u00c2', '\u00a9'])] ∧
    ¬ KeepsValues (readText wordReader) (fun _ => prettyText) accentedText [(['a'], .string ['é'])] := by
  have spelled : commentedDoc accentedText = some (.object [(['a'], .string ['é'])]) := rfl
  have parsed : parseJsonObject (readText wordReader) accentedText =
    some [(['a'], .string ['\u00c3', '\u0083', '\u00c2', '\u00a9'])] := by
    rw [parsed_commented (fun _ => rfl) spelled (by decide)]
    rfl
  refine ⟨spelled, parsed, fun keeps => ?_⟩
  cases parsed.symm.trans keeps.parsed

end Examples

end Codegraph.Installer
