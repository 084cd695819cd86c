import Mathlib.Data.List.DropRight

/- This file compiles the globs of the file listing to small regexes, and matches a path against them. -/

namespace Codegraph.Mcp
open List

/-- The regex text of a glob, without its anchors. -/
def globBody : List Char → List Char
  | [] => []
  | '*' :: '*' :: rest => '.' :: '*' :: globBody rest
  | '*' :: rest => '[' :: '^' :: '/' :: ']' :: '*' :: globBody rest
  | '?' :: rest => '[' :: '^' :: '/' :: ']' :: globBody rest
  | '.' :: rest => '\\' :: '.' :: globBody rest
  | '/' :: rest => '/' :: globBody rest
  | c :: rest => if c.isAlphanum ∨ c = '_' ∨ c = '-' then c :: globBody rest else '\\' :: c :: globBody rest

/-- The rest of a regex is tried at every place up to the first character that fails the test. -/
def starLoop (test : Char → Bool) (later : List Char → Bool) : List Char → Bool
  | [] => later []
  | c :: rest => later (c :: rest) || (test c && starLoop test later rest)

def oneChar (test : Char → Bool) (later : List Char → Bool) : List Char → Bool
  | [] => false
  | c :: rest => test c && later rest

/-- The matcher knows a negated class of the slash, a dot with a star, and plain or escaped characters. -/
def simpleMatches (pattern : List Char) : List Char → Bool :=
  match pattern with
  | [] => List.isEmpty
  | first :: rest =>
    match if first = '[' then rest.findIdx? (· = ']') else none with
    | some close =>
      if rest[close + 1]? = some '*' then starLoop (· ≠ '/') (simpleMatches (rest.drop (close + 2)))
      else oneChar (· ≠ '/') (simpleMatches (rest.drop (close + 1)))
    | none =>
      if first = '.' ∧ rest.head? = some '*' then starLoop (fun _ => true) (simpleMatches (rest.drop 1))
      else if first = '\\' ∧ rest ≠ [] then oneChar (· = rest.headD first) (simpleMatches (rest.drop 1))
      else oneChar (· = first) (simpleMatches rest)
termination_by pattern.length
decreasing_by all_goals (simp only [List.length_drop, List.length_cons]; omega)

/-- The anchors of a regex are trimmed, together with every dollar sign before the last one. -/
def simpleRegexMatch (regex path : List Char) : Bool :=
  simpleMatches ((regex.dropWhile (· = '^')).rdropWhile (· = '$')) path

def globMatch (pattern path : List Char) : Bool := simpleRegexMatch ('^' :: globBody pattern ++ ['$']) path

/-- What a glob is made of. -/
inductive GlobToken where
  | anything
  | segmentPart
  | oneOfSegment
  | literal (c : Char)
  deriving DecidableEq

def globTokens : List Char → List GlobToken
  | [] => []
  | '*' :: '*' :: rest => .anything :: globTokens rest
  | '*' :: rest => .segmentPart :: globTokens rest
  | '?' :: rest => .oneOfSegment :: globTokens rest
  | c :: rest => .literal c :: globTokens rest

/-- The texts that one token stands for. Only two asterisks cross a slash. -/
def GlobToken.Accepts : GlobToken → List Char → Prop
  | .anything, _ => True
  | .segmentPart, text => '/' ∉ text
  | .oneOfSegment, text => ∃ c, c ≠ '/' ∧ text = [c]
  | .literal c, text => text = [c]

/-- A path is in the language of its tokens when it falls apart into texts that they accept. -/
def GlobAccepts : List GlobToken → List Char → Prop
  | [], path => path = []
  | token :: rest, path => ∃ front back, path = front ++ back ∧ token.Accepts front ∧ GlobAccepts rest back

def GlobToken.body : GlobToken → List Char
  | .anything => ['.', '*']
  | .segmentPart => ['[', '^', '/', ']', '*']
  | .oneOfSegment => ['[', '^', '/', ']']
  | .literal c => if c = '/' ∨ c.isAlphanum ∨ c = '_' ∨ c = '-' then [c] else ['\\', c]

theorem globBody_eq (pattern : List Char) : globBody pattern = (globTokens pattern).flatMap GlobToken.body := by
  fun_induction globTokens pattern with
  | case1 => rfl
  | case2 rest ih => rw [globBody, ih]; rfl
  | case3 rest single ih => rw [globBody.eq_3 _ single, ih]; rfl
  | case4 rest ih => rw [globBody, ih]; rfl
  | case5 c rest notDouble notStar notQuestion ih =>
    by_cases dot : c = '.'
    · subst dot
      rw [globBody, ih]
      rfl
    · by_cases slash : c = '/'
      · subst slash
        rw [globBody, ih]
        rfl
      · rw [globBody.eq_7 _ _ notDouble notStar notQuestion dot slash, ih, flatMap_cons, GlobToken.body]
        simp only [slash, false_or]
        split <;> rfl

/-- The loop tries every text in front that passes its test. -/
theorem starLoop_iff {test : Char → Bool} {later : List Char → Bool} {text : List Char} :
    starLoop test later text = true ↔
      ∃ front back, text = front ++ back ∧ (∀ c ∈ front, test c = true) ∧ later back = true := by
  induction text with
  | nil => simp [starLoop]
  | cons c rest ih =>
    rw [starLoop, Bool.or_eq_true, Bool.and_eq_true, ih]
    constructor
    · rintro (here | ⟨passes, front, back, rfl, inside, found⟩)
      · exact ⟨[], c :: rest, rfl, by simp, here⟩
      · exact ⟨c :: front, back, rfl, forall_mem_cons.mpr ⟨passes, inside⟩, found⟩
    · rintro ⟨front, back, same, inside, found⟩
      cases front with
      | nil => exact .inl (same ▸ found)
      | cons first front =>
        cases same
        have parts := forall_mem_cons.mp inside
        exact .inr ⟨parts.1, front, back, rfl, parts.2, found⟩

theorem oneChar_iff {test : Char → Bool} {later : List Char → Bool} {text : List Char} :
    oneChar test later text = true ↔
      ∃ front back, text = front ++ back ∧ (∃ c, test c = true ∧ front = [c]) ∧ later back = true := by
  cases text with
  | nil => simp [oneChar]
  | cons c rest =>
    rw [oneChar, Bool.and_eq_true]
    constructor
    · rintro ⟨passes, found⟩
      exact ⟨[c], rest, rfl, ⟨c, passes, rfl⟩, found⟩
    · rintro ⟨front, back, same, ⟨d, passes, rfl⟩, found⟩
      cases same
      exact ⟨passes, found⟩

section Matching

variable {pattern text : List Char}

theorem simpleMatches_anything : simpleMatches ('.' :: '*' :: pattern) = starLoop (fun _ => true)
    (simpleMatches pattern) := by
  rw [simpleMatches]
  rfl

theorem simpleMatches_segmentPart :
    simpleMatches ('[' :: '^' :: '/' :: ']' :: '*' :: pattern) = starLoop (· ≠ '/') (simpleMatches pattern) := by
  rw [simpleMatches]
  rfl

theorem simpleMatches_oneOfSegment (plain : pattern.head? ≠ some '*') :
    simpleMatches ('[' :: '^' :: '/' :: ']' :: pattern) = oneChar (· ≠ '/') (simpleMatches pattern) := by
  rw [simpleMatches]
  have place : ('^' :: '/' :: ']' :: pattern).findIdx? (· = ']') = some 2 := by simp [findIdx?_cons]
  simp only [if_true, place]
  rw [if_neg (by simpa [head?_eq_getElem?] using plain)]
  rfl

theorem simpleMatches_escaped {first : Char} :
    simpleMatches ('\\' :: first :: pattern) = oneChar (· = first) (simpleMatches pattern) := by
  rw [simpleMatches]
  simp

theorem simpleMatches_plain {first : Char} (noClass : first ≠ '[') (noDot : first ≠ '.')
    (noEscape : first ≠ '\\' ∨ pattern = []) :
    simpleMatches (first :: pattern) = oneChar (· = first) (simpleMatches pattern) := by
  rw [simpleMatches]
  have unescaped : ¬ (first = '\\' ∧ pattern ≠ []) := fun both => noEscape.elim (· both.1) both.2
  simp only [noClass, noDot, if_false, false_and, unescaped]

theorem simpleMatches_literal {first : Char} :
    simpleMatches ((GlobToken.literal first).body ++ pattern) = oneChar (· = first) (simpleMatches pattern) := by
  by_cases bare : first = '/' ∨ first.isAlphanum ∨ first = '_' ∨ first = '-'
  · rw [GlobToken.body, if_pos bare, singleton_append]
    have ordinary : first ≠ '[' ∧ first ≠ '.' ∧ first ≠ '\\' := by
      refine ⟨?_, ?_, ?_⟩
      all_goals
        rintro rfl
        revert bare
        decide
    exact simpleMatches_plain ordinary.1 ordinary.2.1 (.inl ordinary.2.2)
  · rw [GlobToken.body, if_neg bare, cons_append, singleton_append, simpleMatches_escaped]

/-- One token's regex takes a text that the token accepts off the front. -/
theorem simpleMatches_body {token : GlobToken} (plain : pattern.head? ≠ some '*') :
    simpleMatches (token.body ++ pattern) text = true ↔
      ∃ front back, text = front ++ back ∧ token.Accepts front ∧ simpleMatches pattern back = true := by
  cases token with
  | anything => simp [GlobToken.body, simpleMatches_anything, starLoop_iff, GlobToken.Accepts]
  | segmentPart =>
    rw [GlobToken.body, cons_append, cons_append, cons_append, cons_append, singleton_append,
      simpleMatches_segmentPart, starLoop_iff]
    have slashFree (front : List Char) : (∀ c ∈ front, decide (c ≠ '/') = true) ↔ '/' ∉ front :=
      ⟨fun each slash => by
        simpa using each _ slash, fun free c member => decide_eq_true fun same => free (same ▸ member)⟩
    simp only [slashFree, GlobToken.Accepts]
  | oneOfSegment =>
    rw [GlobToken.body, cons_append, cons_append, cons_append, singleton_append,
      simpleMatches_oneOfSegment plain, oneChar_iff]
    simp only [decide_eq_true_eq, GlobToken.Accepts]
  | literal first =>
    rw [simpleMatches_literal, oneChar_iff]
    simp only [decide_eq_true_eq, exists_eq_left, GlobToken.Accepts]

theorem body_head (token : GlobToken) (rest : List Char) {other : Char} (special : other = '*' ∨ other = '^') :
    (token.body ++ rest).head? ≠ some other := by
  cases token with
  | literal c =>
    rw [GlobToken.body]
    split
    next bare =>
      intro same
      cases (Option.some.inj same : c = other)
      revert bare
      rcases special with rfl | rfl <;> decide
    next =>
      intro same
      cases (Option.some.inj same : '\\' = other)
      revert special
      decide
  | _ =>
    intro same
    cases Option.some.inj same
    revert special
    decide

/-- Tokens match in front of whatever their ending matches. -/
theorem simpleMatches_bodies {tokens ending : List GlobToken} {last : List Char} (plain : last.head? ≠ some '*')
    (ends : ∀ text, simpleMatches last text = true ↔ GlobAccepts ending text) (text : List Char) :
    simpleMatches (tokens.flatMap GlobToken.body ++ last) text = true ↔ GlobAccepts (tokens ++ ending) text := by
  induction tokens generalizing text with
  | nil => exact ends text
  | cons token tokens ih =>
    have next : (tokens.flatMap GlobToken.body ++ last).head? ≠ some '*' := by
      cases tokens with
      | nil => exact plain
      | cons second tokens => rw [flatMap_cons, append_assoc]; exact body_head second _ (.inl rfl)
    rw [flatMap_cons, append_assoc, simpleMatches_body next, cons_append, GlobAccepts]
    simp only [ih]

end Matching

section Anchors

/-- The last dollar sign of a glob goes with the anchor, and its escape stands alone. -/
def misread (pattern : List Char) : List Char :=
  if pattern.getLast? = some '$' then pattern.dropLast ++ ['\\'] else pattern

theorem globTokens_snoc {pattern : List Char} {c : Char} (notStar : c ≠ '*') (notQuestion : c ≠ '?') :
    globTokens (pattern ++ [c]) = globTokens pattern ++ [.literal c] := by
  fun_induction globTokens pattern with
  | case1 =>
    rw [nil_append, globTokens.eq_5 _ _ (fun _ same _ => notStar same) notStar notQuestion]
    rfl
  | case2 rest ih => rw [cons_append, cons_append, globTokens, ih, cons_append]
  | case3 rest single ih =>
    rw [cons_append, globTokens.eq_3, ih, cons_append]
    intro tail double
    cases rest with
    | nil => exact notStar (cons.inj double).1
    | cons first rest => exact single rest (congrArg (· :: rest) (cons.inj double).1)
  | case4 rest ih => rw [cons_append, globTokens, ih, cons_append]
  | case5 first rest _ plain single ih =>
    rw [cons_append, globTokens.eq_5 _ _ (fun _ same _ => plain same) plain single, ih, cons_append]

theorem globTokens_last {pattern : List Char} (dollar : (globTokens pattern).getLast? = some (.literal '$')) :
    pattern.getLast? = some '$' := by
  fun_induction globTokens pattern with
  | case1 => cases dollar
  | case2 rest ih => grind
  | case3 rest _ ih => grind
  | case4 rest ih => grind
  | case5 c rest _ _ _ ih =>
    rw [getLast?_cons] at dollar ⊢
    cases rest with
    | nil => grind [globTokens]
    | cons next rest =>
      have found : (globTokens (next :: rest)).getLast? = some (.literal '$') := by
        rw [← dollar]
        unfold globTokens
        grind
      rw [ih found]
      rfl

/-- The regex of a token ends in a dollar sign only for that sign itself. -/
theorem body_last (token : GlobToken) :
    ∃ front final, token.body = front ++ [final] ∧ (final = '$' → token = .literal '$') := by
  cases token with
  | anything => exact ⟨['.'], '*', rfl, by decide⟩
  | segmentPart => exact ⟨['[', '^', '/', ']'], '*', rfl, by decide⟩
  | oneOfSegment => exact ⟨['[', '^', '/'], ']', rfl, by decide⟩
  | literal c =>
    rw [GlobToken.body]
    split
    next => exact ⟨[], c, rfl, congrArg GlobToken.literal⟩
    next => exact ⟨['\\'], c, rfl, congrArg GlobToken.literal⟩

theorem rdropWhile_bodies {tokens : List GlobToken} (other : tokens.getLast? ≠ some (.literal '$')) :
    (tokens.flatMap GlobToken.body).rdropWhile (· = '$') = tokens.flatMap GlobToken.body := by
  induction tokens using reverseRecOn with
  | nil => rfl
  | append_singleton tokens token ih =>
    obtain ⟨front, final, same, onlyDollar⟩ := body_last token
    have kept : final ≠ '$' := fun dollar => other (by simp [onlyDollar dollar])
    rw [flatMap_append, flatMap_singleton, same, ← append_assoc]
    exact rdropWhile_concat_neg _ _ _ (by simpa using kept)

/-- Trimming the anchors cuts the dollar signs at the end. -/
theorem globMatch_eq {pattern path : List Char} : globMatch pattern path =
      simpleMatches (((globTokens pattern).flatMap GlobToken.body).rdropWhile (· = '$')) path := by
  have start : (globBody pattern ++ ['$']).head? ≠ some '^' := by
    rw [globBody_eq]
    cases globTokens pattern with
    | nil => decide
    | cons token tokens =>
      rw [flatMap_cons, append_assoc]
      exact body_head token _ (.inr rfl)
  have trimmed : ('^' :: globBody pattern ++ ['$']).dropWhile (· = '^') = globBody pattern ++ ['$'] := by
    rw [cons_append, dropWhile_cons_of_pos (by decide)]
    exact dropWhile_eq_self_iff.mpr fun inside same =>
      start (by rw [head?_eq_getElem?, getElem?_eq_getElem inside]; simpa using same)
  rw [globMatch, simpleRegexMatch, trimmed, rdropWhile_concat_pos _ _ _ (by decide), globBody_eq]

/-- A glob matches exactly the paths of its language, where one asterisk and a question mark stay inside a segment. A
dollar sign at the end of the glob stands for a backslash. -/
theorem glob_matches_iff (pattern path : List Char) :
    globMatch pattern path = true ↔ GlobAccepts (globTokens (misread pattern)) path := by
  rw [globMatch_eq, misread]
  split
  next dollar =>
    obtain ⟨front, rfl⟩ : ∃ front, pattern = front ++ ['$'] := getLast?_eq_some_iff.mp dollar
    have alone (text : List Char) : simpleMatches ['\\'] text = true ↔ GlobAccepts [.literal '\\'] text := by
      rw [simpleMatches_plain (by decide) (by decide) (.inr rfl), oneChar_iff]
      simp [GlobAccepts, GlobToken.Accepts, simpleMatches]
    have trimmed : ((globTokens (front ++ ['$'])).flatMap GlobToken.body).rdropWhile (· = '$')
        = (globTokens front).flatMap GlobToken.body ++ ['\\'] := by
      rw [globTokens_snoc (by decide) (by decide), flatMap_append]
      show ((globTokens front).flatMap GlobToken.body ++ ['\\', '$']).rdropWhile _ = _
      rw [show ['\\', '$'] = ['\\'] ++ ['$'] from rfl, ← append_assoc,
        rdropWhile_concat_pos _ _ _ (by decide)]
      exact rdropWhile_concat_neg _ _ _ (by decide)
    rw [trimmed, dropLast_concat, globTokens_snoc (by decide) (by decide), simpleMatches_bodies (by decide) alone]
  next other =>
    have empty (text : List Char) : simpleMatches [] text = true ↔ GlobAccepts [] text := by
      simp [simpleMatches, GlobAccepts]
    have whole : simpleMatches ((globTokens pattern).flatMap GlobToken.body ++ []) path = true ↔
        GlobAccepts (globTokens pattern ++ []) path := simpleMatches_bodies (by decide) empty path
    rw [append_nil, append_nil] at whole
    rw [rdropWhile_bodies fun last => other (globTokens_last last), whole]

end Anchors

end Codegraph.Mcp
