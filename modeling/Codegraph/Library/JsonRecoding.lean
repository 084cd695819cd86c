import Codegraph.Library.JsonCommas

/- This file writes the characters outside of ASCII in JSON texts as several others. -/

namespace JsonTokens
open List

/-- A recoding keeps ASCII and writes every other character as several that are outside of ASCII too. -/
structure Widens (recode : Char → List Char) : Prop where
  ascii : ∀ c, c.toNat < 128 → recode c = [c]
  long : ∀ c, ¬ c.toNat < 128 → 2 ≤ (recode c).length
  wide : ∀ c, ¬ c.toNat < 128 → ∀ d ∈ recode c, ¬ d.toNat < 128

variable {recode : Char → List Char} {c d : Char} {text rest wide : List Char} {blank : Char → Bool}

theorem Widens.ne_nil (widens : Widens recode) (c : Char) : recode c ≠ [] := by
  by_cases small : c.toNat < 128
  · simp [widens.ascii c small]
  · intro empty
    have long := widens.long c small
    simp [empty] at long

theorem Widens.ascii_cons (widens : Widens recode) (small : c.toNat < 128) (rest : List Char) :
    (c :: rest).flatMap recode = c :: rest.flatMap recode := by
  rw [flatMap_cons, widens.ascii c small, singleton_append]

theorem Widens.wide_head (widens : Widens recode) (large : ¬ c.toNat < 128) :
    ∃ first tail, recode c = first :: tail ∧ ¬ first.toNat < 128 := by
  obtain ⟨first, tail, shape⟩ := exists_cons_of_ne_nil (widens.ne_nil c)
  exact ⟨first, tail, shape, widens.wide c large first (by simp [shape])⟩

/-- Only the first of the characters that stand for another one may be in ASCII. -/
theorem Widens.split (widens : Widens recode) (c : Char) :
    ∃ first tail, recode c = first :: tail ∧ ∀ d ∈ tail, ¬ d.toNat < 128 := by
  obtain ⟨first, tail, shape⟩ := exists_cons_of_ne_nil (widens.ne_nil c)
  refine ⟨first, tail, shape, fun d member => ?_⟩
  by_cases small : c.toNat < 128
  · rw [widens.ascii c small] at shape
    simp [← (cons.inj shape).2] at member
  · exact widens.wide c small d (by simp [shape, member])

/-- Recoding twice is a recoding. -/
theorem Widens.twice (widens : Widens recode) : Widens fun c => (recode c).flatMap recode where
  ascii c small := by simp [widens.ascii c small]
  long c large := by
    have wide := widens.wide c large
    have long := widens.long c large
    rcases shape : recode c with _ | ⟨first, rest⟩
    · simp [shape] at long
    · rw [shape] at wide
      have more := widens.long first (wide first (by simp))
      simp only [flatMap_cons, length_append]
      omega
  wide c large d member := by
    obtain ⟨e, inside, member⟩ := mem_flatMap.mp member
    exact widens.wide e (widens.wide c large e inside) d member

theorem Widens.length (widens : Widens recode) (text : List Char) : text.length ≤ (text.flatMap recode).length ∧
    ((text.flatMap recode).length = text.length → ∀ c ∈ text, c.toNat < 128) := by
  induction text with
  | nil => simp
  | cons c rest ih =>
    simp only [flatMap_cons, length_append, length_cons]
    by_cases small : c.toNat < 128
    · rw [widens.ascii c small, length_singleton]
      refine ⟨by omega, fun same d member => ?_⟩
      rcases mem_cons.mp member with rfl | member
      · exact small
      · exact ih.2 (by omega) d member
    · have long := widens.long c small
      exact ⟨by omega, fun same => by omega⟩

theorem Widens.eq_self_iff (widens : Widens recode) : text.flatMap recode = text ↔ ∀ c ∈ text, c.toNat < 128 := by
  constructor
  · intro same
    exact (widens.length text).2 (by rw [same])
  · intro ascii
    induction text with
    | nil => rfl
    | cons c rest ih =>
      rw [widens.ascii_cons (ascii c (by simp)), ih fun d member => ascii d (by simp [member])]

/-- A character outside of ASCII is none of the marks. -/
theorem wide_ne (large : ¬ c.toNat < 128) (ascii : d.toNat < 128) : c ≠ d := by
  rintro rfl
  exact large ascii

/-- A scan that copies each character outside of ASCII copies a text of them. -/
theorem copies_wide {scan : List Char → List Char}
    (copies : ∀ c rest, ¬ c.toNat < 128 → scan (c :: rest) = c :: scan rest) (large : ∀ c ∈ wide, ¬ c.toNat < 128) :
    scan (wide ++ rest) = wide ++ scan rest := by
  induction wide with
  | nil => rfl
  | cons c wide ih =>
    rw [cons_append, copies c _ (large c (by simp)), ih fun d member => large d (by simp [member])]
    rfl

/-- A scan that passes over each character outside of ASCII passes over a text of them. -/
theorem passes_wide {scan : List Char → List Char}
    (passes : ∀ c rest, ¬ c.toNat < 128 → scan (c :: rest) = scan rest) (large : ∀ c ∈ wide, ¬ c.toNat < 128) :
    scan (wide ++ rest) = scan rest := by
  induction wide with
  | nil => rfl
  | cons c wide ih =>
    rw [cons_append, passes c _ (large c (by simp)), ih fun d member => large d (by simp [member])]

section Comments

theorem dropComments_outside_wide (c : Char) (rest : List Char) (large : ¬ c.toNat < 128) :
    dropComments charMarks .outside (c :: rest) = c :: dropComments charMarks .outside rest :=
  dropComments_other (wide_ne large (by decide)) (wide_ne large (by decide))

theorem dropComments_inside_wide (c : Char) (rest : List Char) (large : ¬ c.toNat < 128) :
    dropComments charMarks .inside (c :: rest) = c :: dropComments charMarks .inside rest := by
  rw [dropComments_inside, if_neg (wide_ne large (by decide)), if_neg (wide_ne large (by decide))]

theorem dropComments_line_wide (c : Char) (rest : List Char) (large : ¬ c.toNat < 128) :
    dropComments charMarks .line (c :: rest) = dropComments charMarks .line rest := by
  rw [dropComments, if_neg (wide_ne large (by decide))]

theorem dropComments_block_wide (c : Char) (rest : List Char) (large : ¬ c.toNat < 128) :
    dropComments charMarks .block (c :: rest) = dropComments charMarks .block rest :=
  dropComments_block (wide_ne large (by decide))

/-- The scan of a text is the same for its recoding. -/
def Recodes (recode : Char → List Char) (text : List Char) : Prop := ∀ place,
  dropComments charMarks place (text.flatMap recode) = (dropComments charMarks place text).flatMap recode

/-- Outside of strings and comments one more character keeps the scan of the recoding. -/
theorem Widens.comments_outside (widens : Widens recode)
    (shorter : ∀ other : List Char, other.length < (c :: rest).length → Recodes recode other) :
    dropComments charMarks .outside ((c :: rest).flatMap recode) =
      (dropComments charMarks .outside (c :: rest)).flatMap recode := by
  have onRest : Recodes recode rest := shorter rest (by simp)
  by_cases small : c.toNat < 128
  · rw [widens.ascii_cons small]
    by_cases quote : c = '"'
    · subst quote
      rw [show dropComments charMarks .outside ('"' :: rest) = '"' ::
        dropComments charMarks .inside rest from dropComments_quote,
        show dropComments charMarks .outside ('"' :: rest.flatMap recode) = '"' ::
          dropComments charMarks .inside (rest.flatMap recode)
          from dropComments_quote, onRest, widens.ascii_cons small]
    · by_cases slash : c = '/'
      · subst slash
        rcases rest with _ | ⟨d, more⟩
        · simp [dropComments, widens.ascii '/' small]
        · have onMore : Recodes recode more := shorter more (by simp only [length_cons]; omega)
          have same := onRest .outside
          rw [show '/' = charMarks.slash from rfl, dropComments_slash (by decide)]
          by_cases tiny : d.toNat < 128
          · rw [widens.ascii_cons tiny] at same ⊢
            rw [dropComments_slash (by decide)]
            split
            · exact onMore .line
            · split
              · exact onMore .block
              · rw [same, widens.ascii_cons small]
          · obtain ⟨first, tail, shape, large⟩ := widens.wide_head tiny
            rw [flatMap_cons, shape, cons_append] at same ⊢
            rw [dropComments_slash (by decide), if_neg (wide_ne large (by decide)), if_neg (wide_ne large (by decide)),
              same, if_neg (wide_ne tiny (by decide)), if_neg (wide_ne tiny (by decide)), widens.ascii_cons small]
      · rw [dropComments_other quote slash, dropComments_other quote slash, onRest, widens.ascii_cons small]
  · rw [flatMap_cons, copies_wide dropComments_outside_wide (widens.wide c small), onRest,
      dropComments_outside_wide c rest small, flatMap_cons]

/-- Inside of a block comment one more character keeps the scan of the recoding. -/
theorem Widens.comments_block (widens : Widens recode)
    (shorter : ∀ other : List Char, other.length < (c :: rest).length → Recodes recode other) :
    dropComments charMarks .block ((c :: rest).flatMap recode) =
      (dropComments charMarks .block (c :: rest)).flatMap recode := by
  have onRest : Recodes recode rest := shorter rest (by simp)
  by_cases small : c.toNat < 128
  · rw [widens.ascii_cons small]
    by_cases star : c = '*'
    · subst star
      rcases rest with _ | ⟨d, more⟩
      · simp [dropComments]
      · have onMore : Recodes recode more := shorter more (by simp only [length_cons]; omega)
        have same := onRest .block
        rw [show '*' = charMarks.star from rfl, dropComments_star]
        by_cases tiny : d.toNat < 128
        · rw [widens.ascii_cons tiny] at same ⊢
          rw [dropComments_star]
          split
          · exact onMore .outside
          · exact same
        · obtain ⟨first, tail, shape, large⟩ := widens.wide_head tiny
          rw [flatMap_cons, shape, cons_append] at same ⊢
          rw [dropComments_star, if_neg (wide_ne large (by decide)), same, if_neg (wide_ne tiny (by decide))]
    · rw [dropComments_block star, dropComments_block star, onRest]
  · rw [flatMap_cons, passes_wide dropComments_block_wide (widens.wide c small), onRest,
      dropComments_block_wide c rest small]

/-- Comments are dropped from a recoded text as from the text. -/
theorem Widens.comments (widens : Widens recode) (text : List Char) : Recodes recode text := by
  induction size : text.length using Nat.strongRecOn generalizing text with
  | ind size ih =>
    have shorter : ∀ other : List Char, other.length < text.length → Recodes recode other :=
      fun other less => ih other.length (size ▸ less) other rfl
    rcases text with _ | ⟨c, rest⟩
    · intro place
      simp
    · have onRest : Recodes recode rest := shorter rest (by simp)
      intro place
      cases place with
      | outside => exact widens.comments_outside shorter
      | block => exact widens.comments_block shorter
      | inside =>
        by_cases small : c.toNat < 128
        · rw [widens.ascii_cons small, dropComments_inside, dropComments_inside, onRest, widens.ascii_cons small]
        · rw [flatMap_cons, copies_wide dropComments_inside_wide (widens.wide c small), onRest,
            dropComments_inside_wide c rest small, flatMap_cons]
      | escaped =>
        obtain ⟨first, tail, shape, later⟩ := widens.split c
        rw [flatMap_cons, shape, cons_append, dropComments_escaped,
          copies_wide dropComments_inside_wide later, onRest, dropComments_escaped, flatMap_cons, shape,
          cons_append]
      | line =>
        by_cases small : c.toNat < 128
        · rw [widens.ascii_cons small, dropComments, dropComments]
          split
          · rw [onRest, widens.ascii_cons small]
          · exact onRest .line
        · rw [flatMap_cons, passes_wide dropComments_line_wide (widens.wide c small), onRest,
            dropComments_line_wide c rest small]

end Comments

section Commas

/-- Blanks are characters of ASCII. -/
def AsciiBlank (blank : Char → Bool) : Prop := ∀ c, blank c = true → c.toNat < 128

/-- A widened text begins with a closing bracket exactly when the text does. -/
theorem Widens.closes (widens : Widens recode) (ascii : AsciiBlank blank) (text : List Char) :
    closes charClosers blank (text.flatMap recode) = JsonTokens.closes charClosers blank text := by
  induction text with
  | nil => rfl
  | cons c rest ih =>
    by_cases small : c.toNat < 128
    · rw [widens.ascii_cons small, closes_cons, closes_cons, ih]
    · obtain ⟨first, tail, shape, large⟩ := widens.wide_head small
      rw [flatMap_cons, shape, cons_append, closes_cons, closes_cons, if_neg fun white => large (ascii first white),
        if_neg fun white => small (ascii c white)]
      simp [wide_ne large (d := '}') (by decide), wide_ne large (d := ']') (by decide),
        wide_ne small (d := '}') (by decide),
        wide_ne small (d := ']') (by decide)]

theorem dropCommasOutside_wide (c : Char) (rest : List Char) (large : ¬ c.toNat < 128) :
    dropCommasOutside charMarks charClosers blank .outside (c :: rest) =
      c :: dropCommasOutside charMarks charClosers blank .outside rest := by
  rw [dropCommasOutside, if_neg (wide_ne large (by decide)), if_neg fun both => wide_ne large (by decide) both.1]

theorem dropCommasOutside_inside_wide (c : Char) (rest : List Char) (large : ¬ c.toNat < 128) :
    dropCommasOutside charMarks charClosers blank .inside (c :: rest) =
      c :: dropCommasOutside charMarks charClosers blank .inside rest := by
  rw [dropCommasOutside, if_neg (wide_ne large (by decide)), if_neg (wide_ne large (by decide))]

/-- Trailing commas are dropped from a recoded text as from the text. -/
theorem Widens.commas (widens : Widens recode) (ascii : AsciiBlank blank) (place : Quoting) (text : List Char) :
    dropCommasOutside charMarks charClosers blank place (text.flatMap recode) =
      (dropCommasOutside charMarks charClosers blank place text).flatMap recode := by
  induction text generalizing place with
  | nil => cases place <;> rfl
  | cons c rest ih =>
    cases place with
    | outside =>
      by_cases small : c.toNat < 128
      · rw [widens.ascii_cons small, dropCommasOutside, dropCommasOutside, widens.closes ascii]
        split_ifs <;> simp [ih, widens.ascii c small]
      · rw [flatMap_cons, copies_wide dropCommasOutside_wide (widens.wide c small), ih,
          dropCommasOutside_wide c rest small, flatMap_cons]
    | inside =>
      by_cases small : c.toNat < 128
      · rw [widens.ascii_cons small, dropCommasOutside, dropCommasOutside, ih, widens.ascii_cons small]
      · rw [flatMap_cons, copies_wide dropCommasOutside_inside_wide (widens.wide c small), ih,
          dropCommasOutside_inside_wide c rest small, flatMap_cons]
    | escaped =>
      obtain ⟨first, tail, shape, later⟩ := widens.split c
      rw [flatMap_cons, shape, cons_append, dropCommasOutside,
        copies_wide dropCommasOutside_inside_wide later, ih, dropCommasOutside, flatMap_cons, shape,
        cons_append]

end Commas

section Tokens

/-- The mode of a reader of the recoded text. -/
def recodeMode (recode : Char → List Char) : Mode → Mode
  | .string body => .string (body.flatMap recode)
  | .escaped body => .escaped (body.flatMap recode)
  | mode => mode

theorem lexFrom_wide {body : List Char} (large : ∀ c ∈ wide, ¬ c.toNat < 128) :
    lexFrom false (.string body) (wide ++ rest) = lexFrom false (.string (body ++ wide)) rest := by
  induction wide generalizing body with
  | nil => simp
  | cons c wide ih =>
    have this := large c (by simp)
    rw [cons_append, lexFrom_plain (wide_ne this (by decide)) (wide_ne this (by decide)),
      ih fun d member => large d (by simp [member]), append_assoc, singleton_append]

theorem isLetter_ascii (letter : isLetter c = true) : c.toNat < 128 := by
  have code := code_of_isLetter letter
  omega

theorem ascii_of_start {found : List Token} {next : Mode} (started : start false c = some (found, next)) :
    c.toNat < 128 := by
  cases starts_of_start started with
  | space space =>
    simp only [isSpace, mem_cons, not_mem_nil, or_false, decide_eq_true_eq] at space
    rcases space with rfl | rfl | rfl | rfl <;> decide
  | punct _ punct =>
    simp only [isPunct, mem_cons, not_mem_nil, or_false, decide_eq_true_eq] at punct
    rcases punct with rfl | rfl | rfl | rfl | rfl | rfl <;> decide
  | quote => decide
  | letter _ _ letter => exact isLetter_ascii letter

/-- No comment is open. -/
def Mode.Plain : Mode → Prop
  | .between | .word _ | .string _ | .escaped _ => True
  | .slash | .line | .block | .star => False

theorem plain_of_start {found : List Token} {next : Mode} (started : start false c = some (found, next)) :
    next.Plain ∧ recodeMode recode next = next ∧ found.map (rewriteToken (List.flatMap recode)) = found := by
  cases starts_of_start started <;> exact ⟨trivial, rfl, rfl⟩

/-- A recoded text has the tokens of the text with their strings recoded. -/
theorem Widens.tokens (widens : Widens recode) {mode : Mode} {tokens : List Token} (plain : mode.Plain)
    (read : lexFrom false mode text = some tokens) : lexFrom false (recodeMode recode mode)
    (text.flatMap recode) = some (tokens.map (rewriteToken (List.flatMap recode))) := by
  induction text generalizing mode tokens with
  | nil => cases mode <;> cases read <;> rfl
  | cons c rest ih =>
    have onRest : ∀ (mode : Mode) (tokens : List Token), mode.Plain → lexFrom false mode rest = some tokens →
        lexFrom false (recodeMode recode mode) (rest.flatMap recode) =
          some (tokens.map (rewriteToken (flatMap recode))) :=
      fun _ _ => ih
    have between : ∀ {tokens}, lexFrom false .between (c :: rest) = some tokens →
        lexFrom false .between ((c :: rest).flatMap recode) =
          some (tokens.map (rewriteToken (flatMap recode))) := by
      intro tokens read
      obtain ⟨first, next, more, started, later, rfl⟩ := step_of_lexFrom read
      obtain ⟨nextPlain, sameMode, sameTokens⟩ := @plain_of_start recode _ _ _ started
      rw [widens.ascii_cons (ascii_of_start started), lexFrom_step started, ← sameMode,
        ih nextPlain later, Option.map_some, map_append, sameTokens]
    rw [flatMap_cons] at between ⊢
    cases mode with
    | between => exact between read
    | word letters =>
      cases letter : isLetter c
      · rw [lexFrom_word letter] at read
        obtain ⟨more, later, rfl⟩ := Option.map_eq_some_iff.mp read
        obtain ⟨first, next, _, started, -, -⟩ := step_of_lexFrom later
        have sifted := between later
        rw [widens.ascii c (ascii_of_start started), singleton_append] at sifted ⊢
        show lexFrom false (.word letters) (c :: rest.flatMap recode) = _
        rw [lexFrom_word letter, sifted]
        rfl
      · rw [lexFrom_letter letter] at read
        rw [widens.ascii c (isLetter_ascii letter), singleton_append]
        show lexFrom false (.word letters) (c :: rest.flatMap recode) = _
        rw [lexFrom_letter letter]
        exact onRest (.word (letters ++ [c])) tokens trivial read
    | string body =>
      show lexFrom false (.string (body.flatMap recode)) _ = _
      by_cases quote : c = '"'
      · subst quote
        rw [lexFrom_quote] at read
        obtain ⟨more, later, rfl⟩ := Option.map_eq_some_iff.mp read
        rw [widens.ascii '"' (by decide), singleton_append, lexFrom_quote]
        exact congrArg (Option.map _) (onRest .between more trivial later)
      · by_cases backslash : c = '\\'
        · subst backslash
          rw [lexFrom_backslash] at read
          rw [widens.ascii '\\' (by decide), singleton_append, lexFrom_backslash]
          have same := onRest (.escaped (body ++ ['\\'])) tokens trivial read
          simpa only [recodeMode, flatMap_append, flatMap_cons, flatMap_nil,
            widens.ascii '\\' (by decide), append_nil]
            using same
        · rw [lexFrom_plain quote backslash] at read
          have same := onRest (.string (body ++ [c])) tokens trivial read
          simp only [recodeMode, flatMap_append, flatMap_cons, flatMap_nil, append_nil] at same
          by_cases small : c.toNat < 128
          · rw [widens.ascii c small, singleton_append, lexFrom_plain quote backslash]
            rwa [widens.ascii c small] at same
          · rwa [lexFrom_wide (widens.wide c small)]
    | escaped body =>
      rw [lexFrom_escaped] at read
      have same := onRest (.string (body ++ [c])) tokens trivial read
      obtain ⟨first, tail, shape, later⟩ := widens.split c
      show lexFrom false (.escaped (body.flatMap recode)) _ = _
      simp only [recodeMode, flatMap_append, flatMap_cons, flatMap_nil, append_nil, shape]
        at same
      rw [shape, cons_append, lexFrom_escaped, lexFrom_wide later, append_assoc, singleton_append]
      exact same
    | slash | line | block | star => exact plain.elim

end Tokens

section Meaning

theorem spells_wide {found : List Piece} (large : ∀ c ∈ wide, ¬ c.toNat < 128) (spells : Spells rest found) :
    Spells (wide ++ rest) (wide.map .char ++ found) := by
  induction wide with
  | nil => exact spells
  | cons c wide ih =>
    have this := large c (by simp)
    exact .plain (wide_ne this (by decide)) (wide_ne this (by decide)) (by omega)
      (ih fun d member => large d (by simp [member]))

theorem shortEscape_ascii {mark named : Char} (names : shortEscape mark = some named) : mark.toNat < 128 := by
  unfold shortEscape at names
  split_ifs at names with same b f n r t
  · rcases same with rfl | rfl | rfl <;> decide
  all_goals subst_vars; decide

theorem hexDigit_ascii {digit : Nat} (isDigit : hexDigit c = some digit) : c.toNat < 128 := by
  unfold hexDigit at isDigit
  split_ifs at isDigit with decimal lower upper
  · exact Nat.lt_of_le_of_lt decimal.2 (by decide)
  · exact Nat.lt_of_le_of_lt lower.2 (by decide)
  · exact Nat.lt_of_le_of_lt upper.2 (by decide)

/-- A recoded string spells the recoded characters. -/
theorem Widens.spells (widens : Widens recode) {before : List Piece} (spells : Spells text before) :
    ∃ after, Spells (text.flatMap recode) after ∧ Rewritten before after ∧
      after.length + text.length = before.length + (text.flatMap recode).length := by
  induction spells with
  | nil => exact ⟨[], .nil, .nil, rfl⟩
  | @plain c rest before backslash quote control _ ih =>
    obtain ⟨after, spells, rewritten, lengths⟩ := ih
    refine ⟨(recode c).map .char ++ after, ?_, rewritten.char c (recode c), ?_⟩
    · rw [flatMap_cons]
      by_cases small : c.toNat < 128
      · rw [widens.ascii c small]
        exact spells.plain backslash quote control
      · exact spells_wide (widens.wide c small) spells
    · simp only [flatMap_cons, length_append, length_cons, length_map]
      omega
  | @short mark named rest before names _ ih =>
    obtain ⟨after, spells, rewritten, lengths⟩ := ih
    refine ⟨.char named :: after, ?_, rewritten.char named [named], ?_⟩ <;>
      simp only [flatMap_cons, widens.ascii '\\' (by decide), widens.ascii mark (shortEscape_ascii names),
        singleton_append]
    · exact spells.short names
    · simp only [length_cons]
      omega
  | @unit a b c d code rest before names _ ih =>
    obtain ⟨after, spells, rewritten, lengths⟩ := ih
    have kept : ∀ e ∈ [a, b, c, d], recode e = [e] := fun e member =>
      have ⟨_, isDigit⟩ := hexDigit_of_hexUnit names member
      widens.ascii e (hexDigit_ascii isDigit)
    have shape : ('\\' :: 'u' :: a :: b :: c :: d :: rest).flatMap recode = '\\' :: 'u' :: a :: b :: c :: d ::
      rest.flatMap recode := by
      simp [kept a, kept b, kept c, kept d, widens.ascii '\\' (by decide), widens.ascii 'u' (by decide)]
    refine ⟨.unit code :: after, ?_, .unit code rewritten, ?_⟩ <;> rw [shape]
    · exact spells.unit names
    · simp only [length_cons]
      omega

/-- A string with a character outside of ASCII stands for another text when it is recoded. -/
theorem Widens.sharp (widens : Widens recode) : Doc.Sharp (List.flatMap recode) where
  lengths meant again := by
    obtain ⟨changed, found, lengths⟩ := Doc.unescape_rewritten (fun _ => widens.spells) meant
    obtain rfl := Option.some.inj (found.symm.trans again)
    exact lengths
  fixed same := widens.eq_self_iff.mpr ((widens.length _).2 same)
  oneWay := .inl fun body => (widens.length body).1

end Meaning

end JsonTokens
