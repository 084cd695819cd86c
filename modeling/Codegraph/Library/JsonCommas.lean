import Codegraph.Library.JsonComments
import Codegraph.Library.JsonValues
import Codegraph.Library.Scanning

/- This file removes trailing commas from JSON texts. -/

namespace JsonTokens
open List

section Dropping

variable {α : Type} [DecidableEq α]

/-- The characters that end a trailing comma's list. -/
structure Closers (α : Type) where
  comma : α
  brace : α
  bracket : α

abbrev charClosers : Closers Char := ⟨',', '}', ']'⟩

/-- Behind some blanks stands a closing bracket. -/
def closes (closers : Closers α) (blank : α → Bool) (rest : List α) : Bool :=
  match rest.dropWhile blank with
  | [] => false
  | c :: _ => c = closers.brace || c = closers.bracket

/-- Every comma that closes is dropped, wherever it stands. -/
def dropCommas (closers : Closers α) (blank : α → Bool) : List α → List α
  | [] => []
  | c :: rest =>
    if c = closers.comma ∧ closes closers blank rest = true then dropCommas closers blank rest
    else c :: dropCommas closers blank rest

/-- Whether a scan stands inside of a string, and whether the next character is escaped there. -/
inductive Quoting where
  | outside
  | inside
  | escaped
  deriving DecidableEq

/-- Strings are copied, and the commas outside of them are dropped when they close. -/
def dropCommasOutside (marks : Marks α) (closers : Closers α) (blank : α → Bool) : Quoting → List α → List α
  | _, [] => []
  | .outside, c :: rest =>
    if c = marks.quote then c :: dropCommasOutside marks closers blank .inside rest
    else if c = closers.comma ∧
      closes closers blank rest = true then dropCommasOutside marks closers blank .outside rest
    else c :: dropCommasOutside marks closers blank .outside rest
  | .inside, c :: rest => c :: dropCommasOutside marks closers blank
    (if c = marks.backslash then .escaped else if c = marks.quote then .outside else .inside) rest
  | .escaped, c :: rest => c :: dropCommasOutside marks closers blank .inside rest

end Dropping

section Bodies

/-- The raw text between two quotes. -/
inductive Body : List Char → Prop where
  | nil : Body []
  | plain {c : Char} {rest : List Char} (quote : c ≠ '"') (backslash : c ≠ '\\') (tail : Body rest) : Body (c :: rest)
  | escape (c : Char) {rest : List Char} (tail : Body rest) : Body ('\\' :: c :: rest)

variable {comments : Bool} {text body tail after : List Char} {tokens : List Token}

theorem lexFrom_quote : lexFrom comments (.string body)
    ('"' :: after) = (lexFrom comments .between after).map (.string body :: ·) :=
  lexFrom_step (show step comments (.string body) '"' = some ([.string body], .between) from rfl)

theorem lexFrom_plain {c : Char} (quote : c ≠ '"') (backslash : c ≠ '\\') :
    lexFrom comments (.string body) (c :: after) = lexFrom comments (.string (body ++ [c])) after :=
  lexFrom_silent (by simp [step, quote, backslash])

theorem lexFrom_backslash :
    lexFrom comments (.string body) ('\\' :: after) = lexFrom comments (.escaped (body ++ ['\\'])) after :=
  lexFrom_silent rfl

theorem lexFrom_escaped {c : Char} : lexFrom comments (.escaped body)
    (c :: after) = lexFrom comments (.string (body ++ [c])) after :=
  lexFrom_silent rfl

theorem lexFrom_escape {c : Char} :
    lexFrom comments (.string body) ('\\' :: c :: after) = lexFrom comments (.string (body ++ ['\\', c])) after := by
  rw [lexFrom_backslash, lexFrom_escaped, append_assoc, singleton_append]

theorem lexFrom_body (closed : Body tail) : lexFrom comments (.string body) (tail ++ '"' :: after) =
    (lexFrom comments .between after).map (.string (body ++ tail) :: ·) := by
  induction closed generalizing body with
  | nil => rw [nil_append, lexFrom_quote, append_nil]
  | plain quote backslash _ ih =>
    rw [cons_append, lexFrom_plain quote backslash, ih, append_assoc, singleton_append]
  | escape c _ ih =>
    rw [cons_append, cons_append, lexFrom_escape, ih, append_assoc]
    rfl

/-- A string that is read has a body, and the rest is read behind it. -/
theorem body_of_lexFrom (read : lexFrom comments (.string body) text = some tokens) : ∃ tail after more, Body tail ∧
    text = tail ++ '"' :: after ∧ tokens = .string (body ++ tail) :: more ∧
      lexFrom comments .between after = some more := by
  have closed : ∀ {body after}, lexFrom comments (.string body) ('"' :: after) = some tokens →
    ∃ tail rest more, Body tail ∧
      '"' :: after = tail ++ '"' :: rest ∧ tokens = .string (body ++ tail) :: more ∧
        lexFrom comments .between rest = some more := by
    intro body after read
    rw [lexFrom_quote] at read
    obtain ⟨more, found, rfl⟩ := Option.map_eq_some_iff.mp read
    exact ⟨[], after, more, .nil, rfl, by simp, found⟩
  induction text using twoStepInduction generalizing body with
  | nil => cases read
  | singleton c =>
    by_cases quote : c = '"'
    · subst quote
      exact closed read
    · by_cases backslash : c = '\\'
      · subst backslash
        cases read
      · rw [lexFrom_plain quote backslash] at read
        cases read
  | cons_cons c d rest behind next =>
    by_cases quote : c = '"'
    · subst quote
      exact closed read
    · by_cases backslash : c = '\\'
      · subst backslash
        obtain ⟨tail, after, more, isBody, rfl, rfl, found⟩ := behind (lexFrom_escape ▸ read)
        exact ⟨'\\' :: d :: tail, after, more, .escape d isBody, rfl, by simp, found⟩
      · obtain ⟨tail, after, more, isBody, shape, rfl, found⟩ := next d (lexFrom_plain quote backslash ▸ read)
        exact ⟨c :: tail, after, more, .plain quote backslash isBody, by rw [shape]; rfl, by simp, found⟩

end Bodies

section Sieving

/-- A notion of white space that adds nothing readable to the white space of JSON. -/
structure Blank (blank : Char → Bool) : Prop where
  spaces : ∀ c, isSpace c = true → blank c = true
  others : ∀ c, blank c = true → isSpace c = false → start false c = none
  backslash : blank '\\' = false

/-- The kinds of characters that may stand between the tokens of a text without comments. -/
inductive Starts : Char → List Token → Mode → Prop where
  | space {c : Char} (space : isSpace c = true) : Starts c [] .between
  | punct {c : Char} (space : isSpace c = false) (punct : isPunct c = true) : Starts c [.punct c] .between
  | quote : Starts '"' [] (.string [])
  | letter {c : Char} (space : isSpace c = false) (quote : c ≠ '"') (letter : isLetter c = true) :
      Starts c [] (.word [c])

variable {c : Char} {text rest first tokens : List Char} {found more : List Token} {next : Mode} {blank : Char → Bool}

theorem starts_of_start (started : start false c = some (found, next)) : Starts c found next := by
  unfold start at started
  split_ifs at started with space punct quote letter
  · obtain ⟨rfl, rfl⟩ := Prod.mk.inj (Option.some.inj started)
    exact .space space
  · obtain ⟨rfl, rfl⟩ := Prod.mk.inj (Option.some.inj started)
    exact .punct (by simpa using space) punct
  · obtain ⟨rfl, rfl⟩ := Prod.mk.inj (Option.some.inj started)
    exact quote ▸ .quote
  · obtain ⟨rfl, rfl⟩ := Prod.mk.inj (Option.some.inj started)
    exact .letter (by simpa using space) quote letter
  · simp at *

/-- A space is none of the characters that mean something. -/
theorem space_apart (space : isSpace c = true) : isLetter c = false ∧ c ≠ '"' ∧ c ≠ ',' ∧ c ≠ '}' ∧ c ≠ ']' := by
  simp only [isSpace, List.mem_cons, List.not_mem_nil, or_false, decide_eq_true_eq] at space
  rcases space with rfl | rfl | rfl | rfl <;> decide

theorem punct_apart (punct : isPunct c = true) : isLetter c = false ∧ c ≠ '"' := by
  simp only [isPunct, mem_cons, not_mem_nil, or_false, decide_eq_true_eq] at punct
  rcases punct with rfl | rfl | rfl | rfl | rfl | rfl <;> decide

theorem letter_apart (letter : isLetter c = true) : c ≠ ',' ∧ c ≠ '}' ∧ c ≠ ']' := by
  refine ⟨?_, ?_, ?_⟩ <;> rintro rfl <;> revert letter <;> decide

theorem closes_cons (closers : Closers Char) : closes closers blank (c :: rest) =
    if blank c = true then closes closers blank rest else (c = closers.brace || c = closers.bracket) := by
  rw [closes, dropWhile_cons]
  split_ifs <;> rfl

theorem blank_eq (isBlank : Blank blank) (started : start false c = some (found, next)) : blank c = isSpace c := by
  cases space : isSpace c
  · rw [Bool.eq_false_iff]
    intro white
    rw [isBlank.others c white space] at started
    cases started
  · exact isBlank.spaces c space

/-- A comma closes exactly when the next token is a closing bracket. -/
theorem closes_iff (isBlank : Blank blank) (read : lexFrom false .between rest = some more) :
    closes charClosers blank rest = true ↔ more.head? = some (.punct '}') ∨ more.head? = some (.punct ']') := by
  induction rest with
  | nil =>
    cases read
    simp [closes]
  | cons c rest ih =>
    obtain ⟨found, next, later, started, behind, rfl⟩ := step_of_lexFrom read
    rw [closes_cons, blank_eq isBlank started]
    cases starts_of_start started with
    | space space => rw [if_pos space, ih behind, List.nil_append]
    | punct space punct =>
      simp only [space, Bool.false_eq_true, if_false, Bool.or_eq_true, decide_eq_true_eq]
      simp
    | quote =>
      obtain ⟨tail, after, final, -, -, rfl, -⟩ := body_of_lexFrom behind
      simp [isSpace]
    | letter space quote letter =>
      obtain ⟨word, final, rfl⟩ := word_of_lexFrom behind
      obtain ⟨-, brace, bracket⟩ := letter_apart letter
      simp [space, brace, bracket]

theorem isWhitespace_of_isSpace {c : Char} (space : isSpace c = true) : Scanning.isWhitespace c = true := by
  simp only [isSpace, mem_cons, not_mem_nil, or_false, decide_eq_true_eq] at space
  rcases space with rfl | rfl | rfl | rfl <;> decide

theorem not_isWhitespace_of_isLetter {c : Char} (letter : isLetter c = true) : Scanning.isWhitespace c = false := by
  have code := code_of_isLetter letter
  simp only [Scanning.isWhitespace, Bool.or_eq_false_iff, Bool.and_eq_false_iff, decide_eq_false_iff_not]
  omega

/-- White space outside of strings is the white space of JSON, or the text is not read. -/
theorem blank_isWhitespace : Blank Scanning.isWhitespace where
  spaces _ := isWhitespace_of_isSpace
  others c white space := by
    rw [Option.eq_none_iff_forall_ne_some]
    rintro ⟨tokens, next⟩ started
    cases starts_of_start started with
    | space space_ => simp [space] at space_
    | punct _ punct =>
      simp only [isPunct, mem_cons, not_mem_nil, or_false, decide_eq_true_eq] at punct
      rcases punct with rfl | rfl | rfl | rfl | rfl | rfl <;> revert white <;> decide
    | quote => revert white; decide
    | letter _ _ letter => simp [not_isWhitespace_of_isLetter letter] at white
  backslash := by decide

/-- A scan drops closing commas outside of strings, and rewrites what stands inside of them. -/
structure Sieve (blank : Char → Bool) (scan inner : List Char → List Char) : Prop where
  nil : scan [] = []
  plain : ∀ c rest, c ≠ '"' → scan (c :: rest) =
    if c = ',' ∧ closes charClosers blank rest = true then scan rest else c :: scan rest
  quoted : ∀ tail after, Body tail → scan ('"' :: (tail ++ '"' :: after)) = '"' :: (inner tail ++ '"' :: scan after)
  body : ∀ tail, Body tail → Body (inner tail)

variable {scan inner : List Char → List Char}

theorem Sieve.kept (sieve : Sieve blank scan inner) (quote : c ≠ '"') (comma : c ≠ ',') :
    scan (c :: rest) = c :: scan rest := by
  rw [sieve.plain c rest quote, if_neg fun both => comma both.1]

/-- What is left behind a dropped comma starts with a blank or a bracket. -/
theorem Sieve.head (sieve : Sieve blank scan inner) (isBlank : Blank blank)
    (read : lexFrom false .between rest = some more)
    (closing : closes charClosers blank rest = true) : ∃ d behind, scan rest = d :: behind ∧ isLetter d = false := by
  rcases rest with _ | ⟨d, behind⟩
  · cases closing
  · obtain ⟨found, next, later, started, -, -⟩ := step_of_lexFrom read
    rw [closes_cons, blank_eq isBlank started] at closing
    split at closing
    · rename_i space
      obtain ⟨letter, quote, comma, -⟩ := space_apart space
      exact ⟨d, scan behind, sieve.kept quote comma, letter⟩
    · simp only [Bool.or_eq_true, decide_eq_true_eq] at closing
      rcases closing with rfl | rfl
      · exact ⟨'}', scan behind, sieve.kept (by decide) (by decide), by decide⟩
      · exact ⟨']', scan behind, sieve.kept (by decide) (by decide), by decide⟩

/-- Behind a character that is no letter a sieved text starts with none either. -/
theorem Sieve.head_cons (sieve : Sieve blank scan inner) (isBlank : Blank blank)
    (read : lexFrom false .between (c :: rest) = some more)
    (other : isLetter c = false) : ∃ d behind, scan (c :: rest) = d :: behind ∧ isLetter d = false := by
  obtain ⟨found, next, later, started, behind, rfl⟩ := step_of_lexFrom read
  cases starts_of_start started with
  | space space => exact ⟨c, scan rest, sieve.kept (space_apart space).2.1 (space_apart space).2.2.1, other⟩
  | punct space punct =>
    rw [sieve.plain c rest (punct_apart punct).2]
    split
    · rename_i both
      exact sieve.head isBlank behind both.2
    · exact ⟨c, scan rest, rfl, other⟩
  | quote =>
    obtain ⟨tail, after, final, isBody, rfl, -, -⟩ := body_of_lexFrom behind
    exact ⟨'"', _, sieve.quoted tail after isBody, other⟩
  | letter space quote letter => exact absurd letter (by simp [other])

theorem dropTrailing_comma {closing : Prop}
    (iff : closing ↔ more.head? = some (.punct '}') ∨ more.head? = some (.punct ']')) [Decidable closing] :
    dropTrailing (.punct c :: more) = if c = ',' ∧ closing then dropTrailing more
      else .punct c :: dropTrailing more := by
  simp only [dropTrailing, iff, Token.punct.injEq]

/-- What a scan leaves of a text is read as the text's tokens without their trailing commas. -/
structure Sifted (scan inner : List Char → List Char) (text : List Char) : Prop where
  between : ∀ tokens, lexFrom false .between text = some tokens →
    lexFrom false .between (scan text) = some ((dropTrailing tokens).map (rewriteToken inner))
  word : ∀ letters tokens, lexFrom false (.word letters) text = some tokens →
    lexFrom false (.word letters) (scan text) = some ((dropTrailing tokens).map (rewriteToken inner))

theorem dropTrailing_word (letters : List Char) :
    dropTrailing (.word letters :: more) = .word letters :: dropTrailing more := by
  simp [dropTrailing]

theorem dropTrailing_string (body : List Char) :
    dropTrailing (.string body :: more) = .string body :: dropTrailing more := by
  simp [dropTrailing]

/-- Between tokens a sieved text is read as the text without its trailing commas. -/
theorem Sieve.between (sieve : Sieve blank scan inner) (isBlank : Blank blank)
    (shorter : ∀ other : List Char, other.length < text.length → Sifted scan inner other)
    (read : lexFrom false .between text = some more) :
    lexFrom false .between (scan text) = some ((dropTrailing more).map (rewriteToken inner)) := by
  rcases text with _ | ⟨c, rest⟩
  · cases read
    rw [sieve.nil]
    rfl
  · obtain ⟨found, next, later, started, behind, rfl⟩ := step_of_lexFrom read
    have onRest : Sifted scan inner rest := shorter rest (by simp)
    cases starts_of_start started with
    | space space =>
      obtain ⟨-, quote, comma, -⟩ := space_apart space
      rw [sieve.kept quote comma, lexFrom_silent started]
      exact onRest.between later behind
    | punct space punct =>
      rw [sieve.plain c rest (punct_apart punct).2, singleton_append,
        dropTrailing_comma (closes_iff isBlank behind)]
      split
      · exact onRest.between later behind
      · rw [lexFrom_step started, onRest.between later behind]
        rfl
    | quote =>
      obtain ⟨tail, after, final, isBody, rfl, rfl, last⟩ := body_of_lexFrom behind
      have onAfter : Sifted scan inner after := shorter after (by simp; omega)
      rw [sieve.quoted tail after isBody, lexFrom_silent started, lexFrom_body (sieve.body tail isBody),
        onAfter.between final last, nil_append, nil_append, nil_append, dropTrailing_string]
      rfl
    | letter space quote letter =>
      rw [sieve.kept quote (letter_apart letter).1, lexFrom_silent started]
      exact onRest.word [c] later behind

/-- Inside of a word a sieved text is read as the text without its trailing commas. -/
theorem Sieve.word {letters : List Char} (sieve : Sieve blank scan inner) (isBlank : Blank blank)
    (shorter : ∀ other : List Char, other.length < text.length → Sifted scan inner other)
    (read : lexFrom false (.word letters) text = some more) :
    lexFrom false (.word letters) (scan text) = some ((dropTrailing more).map (rewriteToken inner)) := by
  rcases text with _ | ⟨c, rest⟩
  · cases read
    rw [sieve.nil, dropTrailing_word]
    rfl
  · cases letter : isLetter c
    · rw [lexFrom_word letter] at read
      obtain ⟨later, behind, rfl⟩ := Option.map_eq_some_iff.mp read
      obtain ⟨d, left, shape, other⟩ := sieve.head_cons isBlank behind letter
      have sifted := sieve.between isBlank shorter behind
      rw [shape] at sifted ⊢
      rw [lexFrom_word other, sifted, dropTrailing_word]
      rfl
    · have quote : c ≠ '"' := by
        rintro rfl
        revert letter
        decide
      rw [sieve.kept quote (letter_apart letter).1, lexFrom_letter letter]
      exact (shorter rest (by simp)).word _ more (lexFrom_letter letter ▸ read)

theorem Sieve.sifted (sieve : Sieve blank scan inner) (isBlank : Blank blank) (text : List Char) :
    Sifted scan inner text := by
  induction size : text.length using Nat.strongRecOn generalizing text with
  | ind size ih =>
    have shorter : ∀ other : List Char, other.length < text.length → Sifted scan inner other :=
      fun other less => ih other.length (size ▸ less) other rfl
    exact ⟨fun _ read => sieve.between isBlank shorter read, fun _ _ read => sieve.word isBlank shorter read⟩

end Sieving

section Scans

variable {blank : Char → Bool} {c : Char} {rest tail after text : List Char} {doc : Doc}
  {scan inner : List Char → List Char}

theorem Blank.readable (isBlank : Blank blank) (space : isSpace c = false) (started : start false c ≠ none) :
    blank c = false :=
  Bool.eq_false_iff.mpr fun white => started (isBlank.others c white space)

theorem Blank.quote (isBlank : Blank blank) : blank '"' = false := isBlank.readable (by decide) (by decide)

theorem Blank.comma (isBlank : Blank blank) : blank ',' = false := isBlank.readable (by decide) (by decide)

/-- Only blanks in front of a bracket count, and a quote is neither. -/
theorem closes_append_quote (isBlank : Blank blank) :
    closes charClosers blank (tail ++ '"' :: after) = closes charClosers blank tail := by
  induction tail with
  | nil => simp [isBlank.quote, closes]
  | cons c tail ih => rw [cons_append, closes_cons, closes_cons, ih]

theorem dropCommas_cons : dropCommas charClosers blank (c :: rest) =
    if c = ',' ∧ closes charClosers blank rest = true then dropCommas charClosers blank rest
      else c :: dropCommas charClosers blank rest := rfl

theorem dropCommas_quoted (isBlank : Blank blank) : dropCommas charClosers blank (tail ++ '"' :: after) =
    dropCommas charClosers blank tail ++ '"' :: dropCommas charClosers blank after := by
  induction tail with
  | nil => rw [nil_append, dropCommas_cons, if_neg fun both => by simp at both]; rfl
  | cons c tail ih =>
    rw [cons_append, dropCommas_cons, dropCommas_cons, closes_append_quote isBlank, ih]
    split <;> rfl

/-- Dropping commas leaves a body, and its next character when a comma in front was dropped. -/
theorem body_dropCommas (isBlank : Blank blank) (body : Body tail) : Body (dropCommas charClosers blank tail) := by
  induction body with
  | nil => exact .nil
  | plain quote backslash _ ih =>
    rw [dropCommas_cons]
    split
    · exact ih
    · exact .plain quote backslash ih
  | @escape c rest body ih =>
    rw [dropCommas_cons, if_neg fun both => by simp at both, dropCommas_cons]
    split
    · rename_i both
      rcases rest with _ | ⟨d, more⟩
      · exact absurd both.2 (by simp [closes])
      · have closing := both.2
        rw [closes_cons] at closing
        have other : d ≠ ',' ∧ d ≠ '\\' := by
          split at closing
          · rename_i white
            exact ⟨fun same => by
              simp [same, isBlank.comma] at white, fun same => by simp [same, isBlank.backslash] at white⟩
          · simp only [Bool.or_eq_true, decide_eq_true_eq] at closing
            rcases closing with rfl | rfl <;> decide
        rw [dropCommas_cons, if_neg fun comma => other.1 comma.1] at ih ⊢
        generalize dropCommas charClosers blank more = left at ih ⊢
        cases ih with
        | plain quote backslash body => exact .escape d body
        | escape e body => exact absurd rfl other.2
    · exact .escape c ih

theorem sieve_dropCommas (isBlank : Blank blank) :
    Sieve blank (dropCommas charClosers blank) (dropCommas charClosers blank) where
  nil := rfl
  plain _ _ _ := dropCommas_cons
  quoted tail after _ := by rw [dropCommas_cons, if_neg fun both => by simp at both, dropCommas_quoted isBlank]
  body _ := body_dropCommas isBlank

theorem dropCommasOutside_body (body : Body tail) :
    dropCommasOutside charMarks charClosers blank .inside (tail ++ '"' :: after) =
    tail ++ '"' :: dropCommasOutside charMarks charClosers blank .outside after := by
  induction body with
  | nil => rfl
  | plain quote backslash _ ih =>
    rw [cons_append, dropCommasOutside, if_neg backslash, if_neg quote, ih]
    rfl
  | escape c _ ih =>
    rw [cons_append, cons_append, dropCommasOutside, if_pos rfl, dropCommasOutside, ih]
    rfl

theorem sieve_dropCommasOutside : Sieve blank (dropCommasOutside charMarks charClosers blank .outside) id where
  nil := rfl
  plain c rest quote := by
    rw [dropCommasOutside, if_neg quote]
  quoted tail after body := by
    rw [dropCommasOutside, if_pos rfl, dropCommasOutside_body body]
    rfl
  body _ closed := closed

/-- A text with comments and trailing commas is left as a JSON text of its document, with its strings rewritten. -/
theorem lex_sieve (sieve : Sieve blank scan inner) (isBlank : Blank blank) (spelled : commentedDoc text = some doc) :
    lex (scan (dropComments charMarks .outside text)) = some (doc.rewrite inner).tokens := by
  obtain ⟨tokens, read, parsed⟩ := Option.bind_eq_some_iff.mp spelled
  have shape := parse_eq_some_iff.mp parsed
  rw [Doc.tokens_rewrite, ← shape]
  exact (sieve.sifted isBlank _).between tokens (lex_dropComments read (words_apart shape))

/-- The value of what is left. -/
theorem readText_sieve {Number : Type} (reader : Reader Number) (sieve : Sieve blank scan inner) (isBlank : Blank blank)
    (spelled : commentedDoc text = some doc) :
    readText reader (scan (dropComments charMarks .outside text)) = (doc.rewrite inner).value reader := by
  rw [readText, lex_sieve sieve isBlank spelled, Option.bind_some, parse_tokens]
  rfl

/-- Dropping commas takes the pieces that they were. -/
theorem spells_dropCommas {before : List Piece} (spells : Spells tail before) :
    ∃ after, Spells (dropCommas charClosers blank tail) after ∧
    Rewritten before after ∧
      after.length + tail.length = before.length + (dropCommas charClosers blank tail).length := by
  induction spells with
  | nil => exact ⟨[], .nil, .nil, rfl⟩
  | @plain c rest before backslash quote control _ ih =>
    obtain ⟨after, spells, rewritten, lengths⟩ := ih
    rw [dropCommas_cons]
    split
    · exact ⟨after, spells, rewritten.char c [], by simp only [length_cons]; omega⟩
    · exact ⟨.char c :: after, spells.plain backslash quote control, rewritten.char c [c], by
        simp only [length_cons]; omega⟩
  | @short mark named rest before names _ ih =>
    obtain ⟨after, spells, rewritten, lengths⟩ := ih
    have other : mark ≠ ',' := by
      rintro rfl
      cases names
    refine ⟨.char named :: after, ?_, rewritten.char named [named], ?_⟩ <;>
      rw [dropCommas_cons, if_neg fun both => by simp at both, dropCommas_cons, if_neg fun both => other both.1]
    · exact spells.short names
    · simp only [length_cons]
      omega
  | @unit a b c d code rest before names _ ih =>
    obtain ⟨after, spells, rewritten, lengths⟩ := ih
    have other : ∀ e ∈ [a, b, c, d], e ≠ ',' := by
      rintro e member rfl
      obtain ⟨digit, isDigit⟩ := hexDigit_of_hexUnit names member
      cases isDigit
    have kept : dropCommas charClosers blank ('\\' :: 'u' :: a :: b :: c :: d :: rest) =
        '\\' :: 'u' :: a :: b :: c :: d :: dropCommas charClosers blank rest := by
      simp [dropCommas_cons, other a, other b, other c, other d]
    refine ⟨.unit code :: after, ?_, .unit code rewritten, ?_⟩ <;> rw [kept]
    · exact spells.unit names
    · simp only [length_cons]
      omega

theorem length_dropCommas (text : List Char) : (dropCommas charClosers blank text).length ≤ text.length ∧
    ((dropCommas charClosers blank text).length = text.length → dropCommas charClosers blank text = text) := by
  induction text with
  | nil => exact ⟨le_rfl, fun _ => rfl⟩
  | cons c rest ih =>
    rw [dropCommas_cons]
    split
    · simp only [length_cons]
      exact ⟨by omega, fun same => by omega⟩
    · simp only [length_cons]
      exact ⟨by omega, fun same => by rw [ih.2 (by omega)]⟩

/-- A string from which a comma is dropped stands for another text. -/
theorem sharp_dropCommas : Doc.Sharp (dropCommas charClosers blank) where
  lengths meant again := by
    obtain ⟨changed, found, lengths⟩ := Doc.unescape_rewritten (fun _ => spells_dropCommas) meant
    obtain rfl := Option.some.inj (found.symm.trans again)
    exact lengths
  fixed same := (length_dropCommas _).2 same
  oneWay := .inr fun body => (length_dropCommas body).1

/-- A JSON text is a text with comments that has none. -/
theorem commentedDoc_of_lex (read : lex text = some doc.tokens) : commentedDoc text = some doc := by
  rw [commentedDoc, lexCommented, lexFrom_commented read, Option.bind_some, dropTrailing_tokens, parse_tokens]

/-- A list closes when its blanks end at a closing bracket. -/
theorem closes_eq_true_iff (isBlank : Blank blank) : closes charClosers blank text = true ↔
    ∃ white bracket back, text = white ++ bracket :: back ∧ (∀ c ∈ white, blank c = true) ∧
      (bracket = '}' ∨ bracket = ']') := by
  have marks : blank '}' = false ∧ blank ']' = false :=
    ⟨isBlank.readable (by decide) (by decide), isBlank.readable (by decide) (by decide)⟩
  induction text with
  | nil => simp [closes]
  | cons c rest ih =>
    rw [closes_cons]
    split
    · rename_i white
      refine ih.trans ?_
      constructor
      · rintro ⟨whites, bracket, back, rfl, blanks, closing⟩
        exact ⟨c :: whites, bracket, back, rfl, by simpa [white] using blanks, closing⟩
      · rintro ⟨_ | ⟨first, whites⟩, bracket, back, shape, blanks, closing⟩
        · obtain ⟨rfl, rfl⟩ := List.cons.inj shape
          rcases closing with rfl | rfl <;> simp_all
        · obtain ⟨rfl, rfl⟩ := List.cons.inj shape
          exact ⟨whites, bracket, back, rfl, fun d member => blanks d (by simp [member]), closing⟩
    · rename_i visible
      simp only [Bool.or_eq_true, decide_eq_true_eq]
      constructor
      · intro closing
        exact ⟨[], c, rest, rfl, by simp, closing⟩
      · rintro ⟨_ | ⟨first, whites⟩, bracket, back, shape, blanks, closing⟩
        · obtain ⟨rfl, rfl⟩ := List.cons.inj shape
          exact closing
        · obtain ⟨rfl, rfl⟩ := List.cons.inj shape
          exact absurd (blanks c (by simp)) visible

/-- A text loses no comma exactly when none of its commas closes. -/
theorem dropCommas_eq_self_iff : dropCommas charClosers blank text = text ↔
    ∀ front rest, text = front ++ ',' :: rest → closes charClosers blank rest = false := by
  induction text with
  | nil => simp [dropCommas]
  | cons c rest ih =>
    have split_ : (∀ front back, c :: rest = front ++ ',' :: back → closes charClosers blank back = false) ↔
        (c = ',' → closes charClosers blank rest = false) ∧
          ∀ front back, rest = front ++ ',' :: back → closes charClosers blank back = false := by
      constructor
      · intro all
        exact ⟨fun comma => all [] rest (by rw [comma]; rfl),
          fun front back shape => all (c :: front) back (by rw [shape]; rfl)⟩
      · rintro ⟨here, later⟩ (_ | ⟨first, front⟩) back shape
        · obtain ⟨comma, rfl⟩ := cons.inj shape
          exact here comma
        · exact later front back (cons.inj shape).2
    rw [split_, ← ih, dropCommas_cons]
    split
    · rename_i both
      refine iff_of_false (fun same => ?_) fun none_ => by simp [none_.1 both.1] at both
      have lengths := congrArg length same
      have less := (@length_dropCommas blank rest).1
      simp only [length_cons] at lengths
      omega
    · rename_i kept
      simp only [cons.injEq, true_and, iff_and_self]
      intro _ comma
      exact Bool.eq_false_iff.mpr fun closing => kept ⟨comma, closing⟩

end Scans

end JsonTokens
