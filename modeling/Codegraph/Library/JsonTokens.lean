import Mathlib.Data.List.Chain

/- This file splits JSON texts, with or without comments, into tokens. -/

namespace JsonTokens

/-- A string has the raw text between its quotes, and a word is a literal name or a number. -/
inductive Token where
  | punct (c : Char)
  | string (body : List Char)
  | word (letters : List Char)
  deriving DecidableEq

def isSpace (c : Char) : Bool := c ∈ [' ', '\t', '\n', '\r']

def isPunct (c : Char) : Bool := c ∈ ['{', '}', '[', ']', ':', ',']

/-- The characters of literal names and numbers. -/
def isLetter (c : Char) : Bool := c.isAlphanum || c ∈ ['+', '-', '.']

/-- The codes of the letters of a word. -/
theorem code_of_isLetter {c : Char} (letter : isLetter c = true) : (c.toNat = 43 ∨ c.toNat = 45 ∨ c.toNat = 46) ∨
    (48 ≤ c.toNat ∧ c.toNat ≤ 57) ∨ (65 ≤ c.toNat ∧ c.toNat ≤ 90) ∨ 97 ≤ c.toNat ∧ c.toNat ≤ 122 := by
  have alpha : c.isAlpha = (c.isUpper || c.isLower) := rfl
  have upper : c.isUpper = decide (c.val ≥ 'A'.val ∧ c.val ≤ 'Z'.val) := rfl
  have lower : c.isLower = (c.val ≥ 'a'.val && c.val ≤ 'z'.val) := rfl
  simp only [isLetter, Char.isAlphanum, alpha, upper, lower, Char.isDigit, Bool.or_eq_true, Bool.and_eq_true,
    decide_eq_true_eq, List.mem_cons, List.not_mem_nil, or_false, ge_iff_le, UInt32.le_iff_toNat_le] at letter
  rcases letter with ((⟨low, high⟩ | ⟨low, high⟩) | ⟨low, high⟩) | rfl | rfl | rfl
  · exact .inr (.inr (.inl ⟨low, high⟩))
  · exact .inr (.inr (.inr ⟨low, high⟩))
  · exact .inr (.inl ⟨low, high⟩)
  all_goals decide

/-- What the text so far has left open. -/
inductive Mode where
  | between
  | word (letters : List Char)
  | string (body : List Char)
  | escaped (body : List Char)
  | slash
  | line
  | block
  | star
  deriving DecidableEq

/-- A character outside of words, strings and comments. -/
def start (comments : Bool) (c : Char) : Option (List Token × Mode) :=
  if isSpace c then some ([], .between)
  else if isPunct c then some ([.punct c], .between)
  else if c = '"' then some ([], .string [])
  else if isLetter c then some ([], .word [c])
  else if comments && c = '/' then some ([], .slash)
  else none

/-- One character completes some tokens and changes what is open. -/
def step (comments : Bool) : Mode → Char → Option (List Token × Mode)
  | .between, c => start comments c
  | .word letters, c =>
    if isLetter c then some ([], .word (letters ++ [c]))
    else (start comments c).map fun (tokens, mode) => (.word letters :: tokens, mode)
  | .string body, c =>
    if c = '\\' then some ([], .escaped (body ++ [c]))
    else if c = '"' then some ([.string body], .between)
    else some ([], .string (body ++ [c]))
  | .escaped body, c => some ([], .string (body ++ [c]))
  | .slash, c => if c = '/' then some ([], .line) else if c = '*' then some ([], .block) else none
  | .line, c => some ([], if c = '\n' then .between else .line)
  | .block, c => some ([], if c = '*' then .star else .block)
  | .star, c => some ([], if c = '/' then .between else if c = '*' then .star else .block)

/-- A text may end inside a word or a line comment. -/
def finish : Mode → Option (List Token)
  | .between | .line => some []
  | .word letters => some [.word letters]
  | _ => none

/-- The tokens of the text behind a point where a mode holds. -/
def lexFrom (comments : Bool) (mode : Mode) : List Char → Option (List Token)
  | [] => finish mode
  | c :: rest => (step comments mode c).bind fun (tokens, next) => (lexFrom comments next rest).map (tokens ++ ·)

/-- The tokens that a piece of text completes, and what it leaves open. -/
def run (comments : Bool) (mode : Mode) : List Char → Option (List Token × Mode)
  | [] => some ([], mode)
  | c :: rest => (step comments mode c).bind fun (tokens, next) =>
    (run comments next rest).map fun (more, last) => (tokens ++ more, last)

/-- The tokens of a JSON text. -/
def lex (text : List Char) : Option (List Token) := lexFrom false .between text

/-- The tokens of a text that may have line comments and block comments between its tokens. -/
def lexCommented (text : List Char) : Option (List Token) := lexFrom true .between text

section Running

variable {comments : Bool} {mode next : Mode} {c : Char} {text rest first second : List Char} {tokens more : List Token}

theorem lexFrom_cons : lexFrom comments mode (c :: rest) =
    (step comments mode c).bind fun (tokens, next) => (lexFrom comments next rest).map (tokens ++ ·) := rfl

theorem lexFrom_step (stepped : step comments mode c = some (tokens, next)) :
    lexFrom comments mode (c :: rest) = (lexFrom comments next rest).map (tokens ++ ·) := by
  rw [lexFrom_cons, stepped]
  rfl

theorem lexFrom_silent (stepped : step comments mode c = some ([], next)) :
    lexFrom comments mode (c :: rest) = lexFrom comments next rest := by
  rw [lexFrom_step stepped]
  simp

theorem step_of_lexFrom (read : lexFrom comments mode (c :: rest) = some tokens) :
    ∃ first next more, step comments mode c = some (first, next) ∧ lexFrom comments next rest = some more ∧
      tokens = first ++ more := by
  obtain ⟨⟨first, next⟩, stepped, later⟩ := Option.bind_eq_some_iff.mp read
  obtain ⟨more, found, same⟩ := Option.map_eq_some_iff.mp later
  exact ⟨first, next, more, stepped, found, same.symm⟩

/-- A text is read piece by piece. -/
theorem lexFrom_append : lexFrom comments mode (first ++ second) =
    (run comments mode first).bind fun (tokens, next) => (lexFrom comments next second).map (tokens ++ ·) := by
  induction first generalizing mode with
  | nil => cases found : lexFrom comments mode second <;> simp [run, found]
  | cons c first ih =>
    rw [List.cons_append, lexFrom_cons, run]
    rcases step comments mode c with _ | ⟨tokens, next⟩
    · rfl
    · simp only [Option.bind_some, ih]
      rcases run comments next first with _ | ⟨more, last⟩
      · rfl
      · simp only [Option.bind_some, Option.map_some]
        cases lexFrom comments last second <;> simp

theorem start_commented (started : start false c = some (tokens, next)) : start true c = some (tokens, next) := by
  unfold start at started ⊢
  split_ifs at started ⊢ <;> simp_all

theorem step_commented (stepped : step false mode c = some (tokens, next)) :
    step true mode c = some (tokens, next) := by
  cases mode with
  | between => exact start_commented stepped
  | word letters =>
    simp only [step] at stepped ⊢
    split
    · rename_i letter
      rwa [if_pos letter] at stepped
    · rename_i letter
      rw [if_neg letter] at stepped
      obtain ⟨⟨more, last⟩, started, same⟩ := Option.map_eq_some_iff.mp stepped
      rw [start_commented started]
      exact congrArg some same
  | _ => exact stepped

/-- A text without comments gives the same tokens where comments are allowed. -/
theorem lexFrom_commented (read : lexFrom false mode text = some tokens) : lexFrom true mode text = some tokens := by
  induction text generalizing mode tokens with
  | nil => exact read
  | cons c rest ih =>
    obtain ⟨first, next, more, stepped, later, rfl⟩ := step_of_lexFrom read
    rw [lexFrom_step (step_commented stepped), ih later]
    rfl

theorem run_append : run comments mode (first ++ second) =
    (run comments mode first).bind fun (tokens, next) =>
      (run comments next second).map fun (more, last) => (tokens ++ more, last) := by
  induction first generalizing mode with
  | nil => cases found : run comments mode second <;> simp [run, found]
  | cons c first ih =>
    rw [List.cons_append, run, run]
    rcases step comments mode c with _ | ⟨tokens, next⟩
    · rfl
    · simp only [Option.bind_some, ih]
      rcases run comments next first with _ | ⟨more, last⟩
      · rfl
      · simp only [Option.bind_some, Option.map_some]
        cases run comments last second <;> simp

theorem lexFrom_of_run (ran : run comments mode first = some (tokens, next)) :
    lexFrom comments mode (first ++ second) = (lexFrom comments next second).map (tokens ++ ·) := by
  rw [lexFrom_append, ran]
  rfl

theorem lexFrom_of_silent_run (ran : run comments mode first = some ([], next)) :
    lexFrom comments mode (first ++ second) = lexFrom comments next second := by
  rw [lexFrom_of_run ran]
  simp

theorem run_of_lexFrom (read : lexFrom comments mode (first ++ second) = some tokens) :
    ∃ before next, run comments mode first = some (before, next) := by
  rw [lexFrom_append] at read
  obtain ⟨⟨before, next⟩, ran, -⟩ := Option.bind_eq_some_iff.mp read
  exact ⟨before, next, ran⟩

/-- The last character of a text decides what is open behind it. -/
theorem step_of_run (ran : run comments mode (first ++ [c]) = some (tokens, next)) :
    ∃ middle completed, step comments middle c = some (completed, next) := by
  rw [run_append] at ran
  obtain ⟨⟨before, middle⟩, -, later⟩ := Option.bind_eq_some_iff.mp ran
  obtain ⟨⟨more, last⟩, single, same⟩ := Option.map_eq_some_iff.mp later
  obtain ⟨⟨completed, final⟩, stepped, nothing⟩ := Option.bind_eq_some_iff.mp single
  cases nothing
  cases same
  exact ⟨middle, completed, stepped⟩

theorem run_silent (stepped : step comments mode c = some ([], next)) :
    run comments mode (c :: rest) = run comments next rest := by
  rw [run, stepped]
  cases found : run comments next rest <;> simp [found]

theorem run_append_silent (ran : run comments mode first = some ([], next)) :
    run comments mode (first ++ second) = run comments next second := by
  rw [run_append, ran]
  cases found : run comments next second <;> simp [found]

end Running

/-- A comma in front of a closing bracket is dropped. -/
def dropTrailing : List Token → List Token
  | [] => []
  | token :: rest =>
    if token = .punct ',' ∧ (rest.head? = some (.punct '}') ∨ rest.head? = some (.punct ']')) then dropTrailing rest
    else token :: dropTrailing rest

end JsonTokens
