import Codegraph.Library.JsonCommas

/- This file says what lines of comments change when they are put into a JSON text. -/

namespace JsonTokens
open List

variable {text rest back body : List Char} {c : Char} {tokens : List Token} {mode : Mode}

section Lines

/-- A line comment reaches up to the next line break. -/
theorem run_line (single : '\n' ∉ text) : run true .line text = some ([], .line) := by
  induction text with
  | nil => rfl
  | cons c rest ih =>
    have other : c ≠ '\n' := fun same => single (same ▸ mem_cons_self)
    have stepped : step true .line c = some ([], .line) := by simp [step, other]
    rw [run_silent stepped, ih fun member => single (mem_cons_of_mem c member)]

theorem lexFrom_line (text : List Char) :
    lexFrom true .line text = lexFrom true .between (text.dropWhile (· ≠ '\n')) := by
  induction text with
  | nil => rfl
  | cons c rest ih =>
    by_cases ended : c = '\n'
    · subst ended
      rw [lexFrom_silent (show step true .line '\n' = some ([], .between) from rfl),
        dropWhile_cons_of_neg (by simp),
        lexFrom_silent (show step true .between '\n' = some ([], .between) by decide)]
    · rw [lexFrom_silent (show step true .line c = some ([], .line) by simp [step, ended]), ih,
        dropWhile_cons_of_pos (by simpa using ended)]

theorem run_spaces (spaces : ∀ c ∈ text, isSpace c = true) : run true .between text = some ([], .between) := by
  induction text with
  | nil => rfl
  | cons c rest ih =>
    have stepped : step true .between c = some ([], .between) := by simp [step, start, spaces c (by simp)]
    rw [run_silent stepped, ih fun d member => spaces d (by simp [member])]

/-- A line of spaces and a comment. -/
structure CommentLine (line : List Char) : Prop where
  single : '\n' ∉ line
  shape : ∃ spaces words, line = spaces ++ '/' :: '/' :: words ∧ ∀ c ∈ spaces, isSpace c = true

theorem CommentLine.run {line : List Char} (comment : CommentLine line) :
    run true .between line = some ([], .line) := by
  obtain ⟨single, spaces, words, rfl, white⟩ := comment
  rw [run_append_silent (run_spaces white), run_silent (show step true .between '/' = some ([], .slash) by decide),
    run_silent (show step true .slash '/' = some ([], .line) by decide),
      run_line fun member => single (by simp [member])]

/-- Lines, each behind a line break. -/
def broken (lines : List (List Char)) : List Char := lines.flatMap ('\n' :: ·)

theorem run_broken {lines : List (List Char)} (comments : ∀ line ∈ lines, CommentLine line) (given : lines ≠ [])
    (ends : mode = .between ∨ mode = .line) : run true mode (broken lines) = some ([], .line) := by
  induction lines generalizing mode with
  | nil => exact absurd rfl given
  | cons line lines ih =>
    have first : run true mode ('\n' :: line) = some ([], .line) := by
      rw [run_silent (show step true mode '\n' = some ([], .between) by rcases ends with rfl | rfl <;> decide),
        (comments line (by simp)).run]
    rw [broken, flatMap_cons, run_append_silent first]
    rcases lines with _ | ⟨next, lines⟩
    · rfl
    · exact ih (fun line member => comments line (by simp [member])) (by simp) (.inr rfl)

end Lines

section Blocks

theorem step_star (other : c ≠ '/') : step true .star c = step true .block c := by simp [step, other]

theorem lexFrom_star (other : back.head? ≠ some '/') : lexFrom true .star back = lexFrom true .block back := by
  rcases back with _ | ⟨c, back⟩
  · rfl
  · rw [lexFrom_cons, lexFrom_cons, step_star (by simpa using other)]

/-- Text that does not close a block comment may be left out of it. -/
theorem lexFrom_block (open_ : ¬ ['*', '/'] <:+: text ++ back.take 1) :
    lexFrom true .block (text ++ back) = lexFrom true .block back := by
  have both : (¬ ['*', '/'] <:+: text ++ back.take 1 → lexFrom true .block (text ++ back) = lexFrom true .block back) ∧
      (¬ ['*', '/'] <:+: '*' :: (text ++ back.take 1) →
        lexFrom true .star (text ++ back) = lexFrom true .block back) := by
    clear open_
    induction text with
    | nil =>
      refine ⟨fun _ => rfl, fun open_ => lexFrom_star fun slash => open_ ?_⟩
      obtain ⟨more, rfl⟩ : ∃ more, back = '/' :: more := by
        rcases back with _ | ⟨c, more⟩ <;> simp_all
      exact ⟨[], [], rfl⟩
    | cons c text ih =>
      have block : ¬ ['*', '/'] <:+: c :: (text ++ back.take 1) →
        lexFrom true .block (c :: (text ++ back)) = lexFrom true .block back := by
        intro open_
        by_cases star : c = '*'
        · subst star
          rw [lexFrom_silent (show step true .block '*' = some ([], .star) from rfl)]
          exact ih.2 open_
        · rw [lexFrom_silent (show step true .block c = some ([], .block) by simp [step, star])]
          exact ih.1 fun inside => open_ (infix_cons inside)
      refine ⟨block, fun open_ => ?_⟩
      have other : c ≠ '/' := by
        rintro rfl
        exact open_ ⟨[], text ++ back.take 1, rfl⟩
      rw [cons_append, lexFrom_cons, step_star other, ← lexFrom_cons]
      exact block fun inside => open_ (infix_cons inside)
  exact both.1 open_

end Blocks

section Strings

/-- No string that spells a text holds a line break. -/
theorem lineBreak_of_spells {found : List Piece} (spells : Spells body found) : '\n' ∉ body := by
  induction spells with
  | nil => simp
  | plain backslash quote control _ ih =>
    intro member
    rcases mem_cons.mp member with rfl | member
    · exact control (by decide)
    · exact ih member
  | short names _ ih =>
    intro member
    rcases mem_cons.mp member with escape | member
    · cases escape
    · rcases mem_cons.mp member with rfl | member
      · cases names
      · exact ih member
  | @unit a b c d code rest found names _ ih =>
    intro member
    have parts : '\n' ∈ ['\\', 'u'] ∨ '\n' ∈ [a, b, c, d] ∨ '\n' ∈ rest := by
      simp only [mem_cons, not_mem_nil, or_false] at member ⊢
      tauto
    rcases parts with marks | digits | member
    · exact absurd marks (by decide)
    · obtain ⟨digit, isDigit⟩ := hexDigit_of_hexUnit names digits
      cases isDigit
    · exact ih member

theorem lineBreak_of_unescape {meant : List Char} (read : unescape body = some meant) : '\n' ∉ body := by
  obtain ⟨found, spelled, -⟩ := Option.bind_eq_some_iff.mp read
  exact lineBreak_of_spells (spells_of_pieces spelled)

namespace Doc

variable {Number : Type} {reader : Reader Number}

mutual

/-- The strings of a document that has a value stand for texts. -/
theorem unescape_of_valueAt : ∀ (doc : Doc) (depth : Nat)
    (value : Value Number), doc.valueAt reader depth = some value →
    ∀ body, .string body ∈ doc.tokens → ∃ text, unescape body = some text
  | .word _, _, _, _, _, member => by simp [tokens] at member
  | .string text, depth, value, read, body, member => by
      obtain rfl : body = text := by simpa [tokens] using member
      obtain ⟨meant, found, -⟩ := Option.map_eq_some_iff.mp read
      exact ⟨meant, found⟩
  | .array items, depth, value, read, body, member => by
      simp only [valueAt] at read
      split at read
      · cases read
      · obtain ⟨values, found, -⟩ := Option.map_eq_some_iff.mp read
        exact unescape_of_itemValues items (depth - 1) values found body (by simpa [tokens] using member)
  | .object members, depth, value, read, body, member => by
      simp only [valueAt] at read
      split at read
      · cases read
      · obtain ⟨values, found, -⟩ := Option.map_eq_some_iff.mp read
        exact unescape_of_memberValues members (depth - 1) values found body (by simpa [tokens] using member)

theorem unescape_of_itemValues : ∀ (items : List Doc) (depth : Nat) (values : List (Value Number)),
    itemValues reader depth items = some values → ∀ body, .string body ∈ itemTokens items →
      ∃ text, unescape body = some text
  | [], _, _, _, _, member => by simp [itemTokens] at member
  | doc :: rest, depth, values, read, body, member => by
      simp only [itemValues, Option.bind_eq_some_iff, Option.map_eq_some_iff] at read
      obtain ⟨value, found, more, behind, -⟩ := read
      rw [itemTokens, mem_append, string_mem_moreItems] at member
      rcases member with member | member
      · exact unescape_of_valueAt doc depth value found body member
      · exact unescape_of_itemValues rest depth more behind body member

/-- The strings of members that have values stand for texts. -/
theorem unescape_of_memberValues : ∀ (members : List (List Char × Doc)) (depth : Nat)
    (values : List (List Char × Value Number)),
    memberValues reader depth members = some values → ∀ body, .string body ∈ memberTokens members →
      ∃ text, unescape body = some text
  | [], _, _, _, _, member => by simp [memberTokens] at member
  | (key, doc) :: rest, depth, values, read, body, member => by
      simp only [memberValues, Option.bind_eq_some_iff, Option.map_eq_some_iff] at read
      obtain ⟨name, named, value, found, more, behind, -⟩ := read
      simp only [memberTokens, mem_cons, mem_append, string_mem_moreMembers, reduceCtorEq, false_or,
        Token.string.injEq] at member
      rcases member with rfl | member | member
      · exact ⟨name, named⟩
      · exact unescape_of_valueAt doc depth value found body member
      · exact unescape_of_memberValues rest depth more behind body member

end

end Doc

theorem string_mem_dropTrailing : .string body ∈ dropTrailing tokens ↔ .string body ∈ tokens := by
  induction tokens with
  | nil => rfl
  | cons token rest ih =>
    rw [dropTrailing]
    split
    · rename_i dropped
      simp [ih, dropped.1]
    · simp [ih]

/-- A text with comments has a value. -/
def Denotes {Number : Type} (reader : Reader Number) (text : List Char) (value : Value Number) : Prop :=
  ∃ doc, commentedDoc text = some doc ∧ doc.value reader = some value

/-- A line break in a string leaves no value. -/
theorem not_denotes_of_broken {Number : Type} {reader : Reader Number} {value : Value Number} {front : List Char}
    {before : List Token}
    (ran : run true .between front = some (before, .string body)) : ¬ Denotes reader (front ++ '\n' :: back) value := by
  rintro ⟨doc, spelled, valued⟩
  obtain ⟨tokens, read, parsed⟩ := Option.bind_eq_some_iff.mp spelled
  rw [lexCommented, lexFrom_append, ran, Option.bind_some] at read
  obtain ⟨after, later, rfl⟩ := Option.map_eq_some_iff.mp read
  obtain ⟨tail, rest, more, -, shape, rfl, -⟩ := body_of_lexFrom later
  have shared : '\n' ∈ body ++ tail := by
    rcases tail with _ | ⟨first, tail⟩
    · cases (cons.inj shape).1
    · obtain ⟨rfl, -⟩ := cons.inj shape
      simp
  have member : .string (body ++ tail) ∈ doc.tokens := by
    rw [← parse_eq_some_iff.mp parsed, string_mem_dropTrailing]
    simp
  obtain ⟨text, meant⟩ := Doc.unescape_of_valueAt doc reader.depth value valued _ member
  exact lineBreak_of_unescape meant shared

end Strings

end JsonTokens
