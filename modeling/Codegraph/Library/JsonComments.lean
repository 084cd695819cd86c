import Codegraph.Library.JsonDocuments

/- This file removes comments from JSON texts and keeps their tokens. -/

namespace JsonTokens

/-- The characters that comments and strings are made of, in one alphabet. -/
structure Marks (α : Type) where
  quote : α
  backslash : α
  slash : α
  star : α
  newline : α

abbrev charMarks : Marks Char := ⟨'"', '\\', '/', '*', '\n'⟩

/-- Where a scan for comments stands. -/
inductive Place where
  | outside
  | inside
  | escaped
  | line
  | block
  deriving DecidableEq

section Dropping

variable {α : Type} [DecidableEq α] (marks : Marks α)

/-- Strings are copied, a line comment ends before its line break, and a block comment ends behind its mark. -/
def dropComments : Place → List α → List α
  | _, [] => []
  | .outside, c :: rest =>
    if c = marks.quote then c :: dropComments .inside rest
    else match rest with
      | [] => [c]
      | d :: more =>
        if c = marks.slash ∧ d = marks.slash then dropComments .line more
        else if c = marks.slash ∧ d = marks.star then dropComments .block more
        else c :: dropComments .outside (d :: more)
  | .inside, c :: rest =>
    if c = marks.backslash then c :: dropComments .escaped rest
    else if c = marks.quote then c :: dropComments .outside rest
    else c :: dropComments .inside rest
  | .escaped, c :: rest => c :: dropComments .inside rest
  | .line, c :: rest => if c = marks.newline then c :: dropComments .outside rest else dropComments .line rest
  | .block, c :: rest =>
    match rest with
    | [] => []
    | d :: more =>
      if c = marks.star ∧ d = marks.slash then dropComments .outside more else dropComments .block (d :: more)

variable {marks} {c d : α} {rest more : List α}

@[simp] theorem dropComments_nil (place : Place) : dropComments marks place [] = [] := by cases place <;> rfl

theorem dropComments_quote :
    dropComments marks .outside (marks.quote :: rest) = marks.quote :: dropComments marks .inside rest := by
  rcases rest with _ | ⟨d, more⟩ <;> exact if_pos rfl

theorem dropComments_other (open_ : c ≠ marks.quote) (other : c ≠ marks.slash) :
    dropComments marks .outside (c :: rest) = c :: dropComments marks .outside rest := by
  rcases rest with _ | ⟨d, more⟩
  · exact if_neg open_
  · exact (if_neg open_).trans ((if_neg fun both => other both.1).trans (if_neg fun both => other both.1))

theorem dropComments_slash (apart : marks.slash ≠ marks.quote) :
    dropComments marks .outside (marks.slash :: d :: more) =
      if d = marks.slash then dropComments marks .line more
      else if d = marks.star then dropComments marks .block more
      else marks.slash :: dropComments marks .outside (d :: more) := by
  refine (if_neg apart).trans ?_
  simp only [true_and]

theorem dropComments_inside : dropComments marks .inside (c :: rest) = c :: dropComments marks
    (if c = marks.backslash then .escaped else if c = marks.quote then .outside else .inside) rest := by
  show (if c = marks.backslash then _ else if c = marks.quote then _ else _) = _
  split_ifs <;> rfl

theorem dropComments_escaped : dropComments marks .escaped (c :: rest) = c :: dropComments marks .inside rest := rfl

theorem dropComments_block (other : c ≠ marks.star) :
    dropComments marks .block (c :: rest) = dropComments marks .block rest := by
  rcases rest with _ | ⟨d, more⟩
  · rfl
  · exact if_neg fun both => other both.1

theorem dropComments_star : dropComments marks .block (marks.star :: d :: more) =
    if d = marks.slash then dropComments marks .outside more else dropComments marks .block (d :: more) := by
  show (if marks.star = marks.star ∧ d = marks.slash then _ else _) = _
  simp only [true_and]

end Dropping

section Words

variable {comments : Bool} {letters text rest : List Char} {c : Char} {tokens : List Token}

/-- A character that no word has ends the word. -/
theorem lexFrom_word (other : isLetter c = false) : lexFrom comments (.word letters) (c :: rest) =
    (lexFrom comments .between (c :: rest)).map (.word letters :: ·) := by
  rw [lexFrom_cons, lexFrom_cons]
  simp only [step, other, Bool.false_eq_true, if_false]
  rcases start comments c with _ | ⟨tokens, next⟩
  · rfl
  · simp only [Option.map_some, Option.bind_some, Option.map_map]
    rfl

theorem lexFrom_letter (letter : isLetter c = true) :
    lexFrom comments (.word letters) (c :: rest) = lexFrom comments (.word (letters ++ [c])) rest := by
  rw [lexFrom_cons]
  simp [step, letter]

theorem word_of_lexFrom (read : lexFrom comments (.word letters) text = some tokens) :
    ∃ word more, tokens = .word word :: more := by
  induction text generalizing letters with
  | nil => exact ⟨letters, [], (Option.some.inj read).symm⟩
  | cons c rest ih =>
    cases letter : isLetter c
    · rw [lexFrom_word letter] at read
      obtain ⟨more, -, rfl⟩ := Option.map_eq_some_iff.mp read
      exact ⟨letters, more, rfl⟩
    · exact ih (lexFrom_letter letter ▸ read)

end Words

section Following

/-- The mode of a reader that may hold a word, and what it then still has to give. -/
def held : Option (List Char) → Mode
  | none => .between
  | some letters => .word letters

def owed : Option (List Char) → List Token
  | none => []
  | some letters => [.word letters]

/-- Without its comments a text gives the tokens that it gave with them, whichever comment it starts in. A word may
have ended in front of the comment. -/
structure Follows (text : List Char) : Prop where
  between : ∀ carry tokens, lexFrom true .between text = some tokens → (owed carry ++ tokens).IsChain WordsApart →
    lexFrom false (held carry) (dropComments charMarks .outside text) = some (owed carry ++ tokens)
  word : ∀ letters tokens, lexFrom true (.word letters) text = some tokens → tokens.IsChain WordsApart →
    lexFrom false (.word letters) (dropComments charMarks .outside text) = some tokens
  string : ∀ body tokens, lexFrom true (.string body) text = some tokens → tokens.IsChain WordsApart →
    lexFrom false (.string body) (dropComments charMarks .inside text) = some tokens
  escaped : ∀ body tokens, lexFrom true (.escaped body) text = some tokens → tokens.IsChain WordsApart →
    lexFrom false (.escaped body) (dropComments charMarks .escaped text) = some tokens
  slash : ∀ carry tokens, lexFrom true .slash text = some tokens → (owed carry ++ tokens).IsChain WordsApart →
    lexFrom false (held carry) (dropComments charMarks .outside ('/' :: text)) = some (owed carry ++ tokens)
  line : ∀ carry tokens, lexFrom true .line text = some tokens → (owed carry ++ tokens).IsChain WordsApart →
    lexFrom false (held carry) (dropComments charMarks .line text) = some (owed carry ++ tokens)
  block : ∀ carry tokens, lexFrom true .block text = some tokens → (owed carry ++ tokens).IsChain WordsApart →
    lexFrom false (held carry) (dropComments charMarks .block text) = some (owed carry ++ tokens)
  star : ∀ carry tokens, lexFrom true .star text = some tokens → (owed carry ++ tokens).IsChain WordsApart →
    lexFrom false (held carry) (dropComments charMarks .block ('*' :: text)) = some (owed carry ++ tokens)

variable {carry : Option (List Char)} {rest : List Char} {tokens : List Token} {c : Char}

/-- A character that is no letter lets the reader give what it holds. -/
theorem lexFrom_held (other : isLetter c = false) :
    lexFrom false (held carry) (c :: rest) = (lexFrom false .between (c :: rest)).map (owed carry ++ ·) := by
  cases carry with
  | none => simp [held, owed]
  | some letters => exact lexFrom_word other

theorem follows_nil : Follows [] where
  between carry tokens read _ := by
    cases read
    cases carry <;> rfl
  word letters tokens read _ := read
  string body tokens read _ := by cases read
  escaped body tokens read _ := by cases read
  slash carry tokens read _ := by cases read
  line carry tokens read _ := by
    cases read
    cases carry <;> rfl
  block carry tokens read _ := by cases read
  star carry tokens read _ := by cases read

/-- The kinds of characters that may stand between tokens. -/
inductive Opens : Char → List Token → Mode → Prop where
  | plain {c : Char} {tokens : List Token} (other : isLetter c = false) (quote : c ≠ '"') (slash : c ≠ '/')
      (alike : start false c = some (tokens, .between)) : Opens c tokens .between
  | quote : Opens '"' [] (.string [])
  | letter {c : Char} (letter : isLetter c = true) (quote : c ≠ '"') (slash : c ≠ '/')
      (alike : start false c = some ([], .word [c])) : Opens c [] (.word [c])
  | slash : Opens '/' [] .slash

/-- A token starts in one of the ways that open something. -/
theorem opens_of_start {next : Mode} (started : start true c = some (tokens, next)) : Opens c tokens next := by
  have space_ : isSpace c = true → isLetter c = false ∧ c ≠ '"' ∧ c ≠ '/' := by
    intro space
    simp only [isSpace, List.mem_cons, List.not_mem_nil, or_false, decide_eq_true_eq] at space
    rcases space with rfl | rfl | rfl | rfl <;> decide
  have punct_ : isPunct c = true → isLetter c = false ∧ c ≠ '"' ∧ c ≠ '/' := by
    intro punct
    simp only [isPunct, List.mem_cons, List.not_mem_nil, or_false, decide_eq_true_eq] at punct
    rcases punct with rfl | rfl | rfl | rfl | rfl | rfl <;> decide
  unfold start at started
  split_ifs at started with space punct quote letter slash <;>
    obtain ⟨rfl, rfl⟩ := Prod.mk.inj (Option.some.inj started)
  · obtain ⟨other, quote, slash⟩ := space_ space
    exact .plain other quote slash (by rw [start, if_pos space])
  · obtain ⟨other, quote, slash⟩ := punct_ punct
    exact .plain other quote slash (by rw [start, if_neg space, if_pos punct])
  · subst quote
    exact .quote
  · refine .letter letter quote ?_ (by rw [start, if_neg space, if_neg punct, if_neg quote, if_pos letter])
    rintro rfl
    revert letter
    decide
  · obtain rfl : c = '/' := by simpa using slash
    exact .slash

theorem Follows.outside {text : List Char} (follows : Follows text) (read : lexFrom true .between text = some tokens)
    (apart : tokens.IsChain WordsApart) : lexFrom false .between (dropComments charMarks .outside text) = some tokens :=
  follows.between none tokens read apart

/-- Between tokens a text without its comments is read with what was held back. -/
theorem Follows.between_cons (after : Follows rest) (read : lexFrom true .between (c :: rest) = some tokens)
    (apart : (owed carry ++ tokens).IsChain WordsApart) :
    lexFrom false (held carry) (dropComments charMarks .outside (c :: rest)) = some (owed carry ++ tokens) := by
  obtain ⟨first, next, more, started, later, rfl⟩ := step_of_lexFrom read
  have apartMore : more.IsChain WordsApart := (List.append_assoc .. ▸ apart).right_of_append
  cases opens_of_start started with
  | plain other quote slash alike =>
    rw [dropComments_other quote slash, lexFrom_held other, lexFrom_step (show step false .between c = _ from alike),
      after.outside later apartMore]
    rfl
  | quote =>
    rw [show dropComments charMarks .outside ('"' :: rest) = '"' ::
      dropComments charMarks .inside rest from dropComments_quote,
      lexFrom_held (by decide), lexFrom_step (show step false .between '"' = some ([], .string []) by decide),
      after.string [] more later apartMore]
    rfl
  | letter letter quote slash alike =>
    cases carry with
    | none =>
      rw [dropComments_other quote slash, held, lexFrom_step (show step false .between c = _ from alike),
        after.word [c] more later apartMore]
      rfl
    | some letters =>
      obtain ⟨word, behind, rfl⟩ := word_of_lexFrom later
      exact absurd rfl ((List.isChain_cons_cons.mp apart).1 letters word rfl)
  | slash => exact after.slash carry more later apart

/-- One more character in front keeps the tokens of a text without its comments. -/
theorem follows_cons (after : Follows rest) : Follows (c :: rest) where
  between carry tokens read apart := after.between_cons read apart
  word letters tokens read apart := by
    cases letter : isLetter c
    · rw [lexFrom_word letter] at read
      obtain ⟨more, later, rfl⟩ := Option.map_eq_some_iff.mp read
      exact @Follows.between_cons (some letters) _ _ _ after later apart
    · have other : c ≠ '"' ∧ c ≠ '/' := by constructor <;> rintro rfl <;> revert letter <;> decide
      rw [dropComments_other other.1 other.2, lexFrom_letter letter]
      exact after.word _ tokens (lexFrom_letter letter ▸ read) apart
  string body tokens read apart := by
    obtain ⟨first, next, more, stepped, later, rfl⟩ := step_of_lexFrom read
    rw [dropComments_inside, lexFrom_step (show step false (.string body) c = _ from stepped)]
    simp only [step] at stepped
    have apartMore : more.IsChain WordsApart := apart.right_of_append
    split_ifs at stepped with escape quote <;> obtain ⟨rfl, rfl⟩ := Prod.mk.inj (Option.some.inj stepped)
    · rw [if_pos (show c = charMarks.backslash from escape), after.escaped _ more later apartMore]
      rfl
    · rw [if_neg (show ¬ c = charMarks.backslash from escape), if_pos (show c = charMarks.quote from quote)]
      rw [after.outside later apartMore]
      rfl
    · rw [if_neg (show ¬ c = charMarks.backslash from escape), if_neg (show ¬ c = charMarks.quote from quote),
        after.string _ more later apartMore]
      rfl
  escaped body tokens read apart := by
    obtain ⟨first, next, more, stepped, later, rfl⟩ := step_of_lexFrom read
    obtain ⟨rfl, rfl⟩ := Prod.mk.inj (Option.some.inj stepped)
    rw [dropComments_escaped, lexFrom_step (show step false (.escaped body) c = _ from stepped),
      after.string _ more later apart]
    rfl
  slash carry tokens read apart := by
    obtain ⟨first, next, more, stepped, later, rfl⟩ := step_of_lexFrom read
    rw [show '/' = charMarks.slash from rfl, dropComments_slash (by decide)]
    simp only [step] at stepped
    split_ifs at stepped with line block <;> obtain ⟨rfl, rfl⟩ := Prod.mk.inj (Option.some.inj stepped)
    · rw [if_pos (show c = charMarks.slash from line)]
      exact after.line carry more later apart
    · rw [if_neg (show ¬ c = charMarks.slash from line), if_pos (show c = charMarks.star from block)]
      exact after.block carry more later apart
  line carry tokens read apart := by
    obtain ⟨first, next, more, stepped, later, rfl⟩ := step_of_lexFrom read
    obtain ⟨rfl, rfl⟩ := Prod.mk.inj (Option.some.inj stepped)
    by_cases ended : c = '\n'
    · subst ended
      have kept : dropComments charMarks .line ('\n' :: rest) = '\n' :: dropComments charMarks .outside rest := rfl
      rw [kept, lexFrom_held (by decide), lexFrom_step (show step false .between '\n' = some ([], .between) by decide)]
      rw [after.outside later (List.append_assoc .. ▸ apart).right_of_append]
      rfl
    · rw [if_neg ended] at later
      rw [dropComments, if_neg (show ¬ c = charMarks.newline from ended)]
      exact after.line carry more later apart
  block carry tokens read apart := by
    obtain ⟨first, next, more, stepped, later, rfl⟩ := step_of_lexFrom read
    obtain ⟨rfl, rfl⟩ := Prod.mk.inj (Option.some.inj stepped)
    by_cases star : c = '*'
    · subst star
      exact after.star carry more later apart
    · rw [if_neg star] at later
      rw [dropComments_block (show c ≠ charMarks.star from star)]
      exact after.block carry more later apart
  star carry tokens read apart := by
    obtain ⟨first, next, more, stepped, later, rfl⟩ := step_of_lexFrom read
    obtain ⟨rfl, rfl⟩ := Prod.mk.inj (Option.some.inj stepped)
    rw [show '*' = charMarks.star from rfl, dropComments_star]
    by_cases closed : c = '/'
    · subst closed
      exact after.between carry more later apart
    · rw [if_neg (show ¬ c = charMarks.slash from closed)]
      rw [if_neg closed] at later
      by_cases star : c = '*'
      · subst star
        exact after.star carry more later apart
      · rw [if_neg star] at later
        rw [dropComments_block (show c ≠ charMarks.star from star)]
        exact after.block carry more later apart

theorem follows (text : List Char) : Follows text := by
  induction text with
  | nil => exact follows_nil
  | cons c rest ih => exact follows_cons ih

/-- Dropping the comments of a text keeps its tokens when no two words touch. -/
theorem lex_dropComments {text : List Char} (read : lexCommented text = some tokens)
    (apart : tokens.IsChain WordsApart) : lex (dropComments charMarks .outside text) = some tokens :=
  (follows text).outside read apart

end Following

end JsonTokens
