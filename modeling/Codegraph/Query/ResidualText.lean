import Codegraph.Query.Parser

/- This file separates the filters of a query from the text that is left, which holds no filter any more. -/

namespace Codegraph.Query
open Codegraph.Core List
open Codegraph.Watch.Scope (Text)

/-- What the standard library says of the marks of a query. -/
structure Unicode.KeepsMarks (unicode : Unicode) : Prop where
  space : unicode.isWhitespace ' ' = true
  quote : unicode.isWhitespace '"' = false
  colon : unicode.isWhitespace ':' = false
  lowerQuote : ∀ text : Text, '"' ∈ text → '"' ∈ unicode.toLowercase text

inductive QueryFilter where
  | kind (kind : NodeKind)
  | language (language : Language)
  | path (value : Text)
  | name (value : Text)
  deriving DecidableEq

def QueryFilter.kind? : QueryFilter → Option NodeKind
  | .kind found => some found
  | _ => none

def QueryFilter.language? : QueryFilter → Option Language
  | .language found => some found
  | _ => none

def QueryFilter.path? : QueryFilter → Option Text
  | .path found => some found
  | _ => none

def QueryFilter.name? : QueryFilter → Option Text
  | .name found => some found
  | _ => none

/-- A query that consists of filters and of a text. -/
def ParsedQuery.of (filters : List QueryFilter) (text : Text) : ParsedQuery where
  text := text
  kinds := filters.filterMap QueryFilter.kind?
  languages := filters.filterMap QueryFilter.language?
  pathFilters := filters.filterMap QueryFilter.path?
  nameFilters := filters.filterMap QueryFilter.name?

section Filters

variable (unicode : Unicode)

def filterOfPair (key value : Text) : Option QueryFilter :=
  if value = [] then none
  else if key = "kind".toList then (nodeKindFromStr value).map .kind
  else if key = "lang".toList ∨ key = "language".toList then (languageFromStr (unicode.toLowercase value)).map .language
  else if key = "path".toList then some (.path value)
  else if key = "name".toList then some (.name value)
  else none

/-- The one filter that a token contributes, if it does not stay text. -/
def filterOf (token : Text) : Option QueryFilter :=
  match token.splitOnce ':' with
  | none => none
  | some (head, tail) =>
    if head = [] ∨ tail = [] then none else filterOfPair unicode (unicode.toLowercase head) (unquote tail)

/-- The tokens that stay text. -/
def keptTokens (tokens : List Text) : List Text := tokens.filter fun token => (filterOf unicode token).isNone

def trimEnd (token : Text) : Text := token.rdropWhile unicode.isWhitespace

def trimLast : List Text → List Text
  | [] => []
  | [last] => [trimEnd unicode last]
  | token :: next :: rest => token :: trimLast (next :: rest)

/-- A parse that has one more filter. -/
def QueryParse.add (parse : QueryParse) : QueryFilter → QueryParse
  | .kind found => { parse with out.kinds := parse.out.kinds ++ [found] }
  | .language found => { parse with out.languages := parse.out.languages ++ [found] }
  | .path found => { parse with out.pathFilters := parse.out.pathFilters ++ [found] }
  | .name found => { parse with out.nameFilters := parse.out.nameFilters ++ [found] }

variable {unicode} {token : Text} {tokens : List Text}

/-- A token is added as its filter or kept as text. -/
theorem read_eq (parse : QueryParse) :
    parse.read unicode token = (filterOf unicode token).elim (parse.keep token) parse.add := by
  unfold QueryParse.read filterOf
  cases token.splitOnce ':' with
  | none => rfl
  | some pair =>
    obtain ⟨head, tail⟩ := pair
    simp only [Bool.or_eq_true, List.isEmpty_iff, filterOfPair]
    generalize unicode.toLowercase head = key
    generalize unquote tail = value
    by_cases short : head = [] ∨ tail = []
    · rw [if_pos short, if_pos short]
      rfl
    rw [if_neg short, if_neg short]
    by_cases blank : value = []
    · rw [if_pos blank, if_pos blank]
      rfl
    rw [if_neg blank, if_neg blank]
    by_cases kind : key = "kind".toList
    · rw [if_pos kind, if_pos kind]
      cases nodeKindFromStr value <;> rfl
    rw [if_neg kind, if_neg kind]
    by_cases language : key = "lang".toList ∨ key = "language".toList
    · rw [if_pos language, if_pos language]
      cases languageFromStr (unicode.toLowercase value) <;> rfl
    rw [if_neg language, if_neg language]
    split_ifs <;> rfl

/-- The tokens add their filters in order, and the others are left as text. -/
theorem foldl_read (parse : QueryParse) : tokens.foldl (QueryParse.read unicode) parse =
      ⟨⟨parse.out.text, parse.out.kinds ++ (tokens.filterMap (filterOf unicode)).filterMap QueryFilter.kind?,
        parse.out.languages ++ (tokens.filterMap (filterOf unicode)).filterMap QueryFilter.language?,
        parse.out.pathFilters ++ (tokens.filterMap (filterOf unicode)).filterMap QueryFilter.path?,
        parse.out.nameFilters ++ (tokens.filterMap (filterOf unicode)).filterMap QueryFilter.name?⟩,
        parse.textParts ++ keptTokens unicode tokens⟩ := by
  induction tokens generalizing parse with
  | nil => simp [keptTokens]
  | cons token tokens ih =>
    rw [foldl_cons, ih, read_eq]
    cases found : filterOf unicode token with
    | none => simp [keptTokens, found, QueryParse.keep]
    | some filter =>
      cases filter <;>
        simp [keptTokens, found, filterMap_cons, QueryParse.add, QueryFilter.kind?, QueryFilter.language?,
          QueryFilter.path?, QueryFilter.name?]

/-- A query consists of the filters of its tokens and of the tokens that are left. -/
theorem parseQuery_eq (raw : Text) : parseQuery unicode raw = .of ((tokenize unicode raw).filterMap (filterOf unicode))
      (trim unicode ([' '].intercalate (keptTokens unicode (tokenize unicode raw)))) := by
  simp only [parseQuery, foldl_read]
  rfl

end Filters

section Tokens

variable (unicode : Unicode)

/-- Reads a text inside one token. White space outside quotes would end the token. -/
def readThrough : Bool → Text → Option Bool
  | quoted, [] => some quoted
  | quoted, c :: rest =>
    if !quoted && unicode.isWhitespace c then none else readThrough (if c = '"' then !quoted else quoted) rest

/-- A text that is one token by itself. -/
structure IsToken (token : Text) (quoted : Bool) : Prop where
  nonempty : token ≠ []
  through : readThrough unicode false token = some quoted

/-- Only the last token of a query may end inside a quote. -/
inductive TokenRow : List Text → Prop where
  | nil : TokenRow []
  | last {token : Text} {quoted : Bool} (one : IsToken unicode token quoted) : TokenRow [token]
  | cons {token : Text} {rest : List Text} (closed : IsToken unicode token false) (row : TokenRow rest) :
      TokenRow (token :: rest)

variable {unicode} {token text : Text} {tokens : List Text} {quoted after : Bool}

theorem readThrough_append (first second : Text) : readThrough unicode quoted (first ++ second) =
      (readThrough unicode quoted first).bind fun after => readThrough unicode after second := by
  induction first generalizing quoted with
  | nil => rfl
  | cons c first ih =>
    rw [cons_append, readThrough, readThrough]
    split
    · rfl
    · exact ih

theorem tokenizeFrom_through (through : readThrough unicode quoted text = some after) (rest : Text) :
    tokenizeFrom unicode quoted token (text ++ rest) = tokenizeFrom unicode after (token ++ text) rest := by
  induction text generalizing quoted token with
  | nil =>
    obtain rfl := Option.some.inj through
    rw [nil_append, append_nil]
  | cons c text ih =>
    rw [readThrough] at through
    rw [cons_append, tokenizeFrom]
    split at through
    · cases through
    · rename_i inside
      rw [if_neg inside, ih through, append_assoc, singleton_append]

/-- The tokenizer gives a row of tokens. -/
theorem tokenizeFrom_row (rest : Text) (through : readThrough unicode false token = some quoted) :
    TokenRow unicode (tokenizeFrom unicode quoted token rest) := by
  induction rest generalizing quoted token with
  | nil =>
    rw [tokenizeFrom]
    split
    · exact .nil
    · rename_i some
      exact .last ⟨by simpa using some, through⟩
  | cons c rest ih =>
    rw [tokenizeFrom]
    split
    · rename_i ends
      split
      · exact ih rfl
      · rename_i some
        simp only [Bool.and_eq_true, Bool.not_eq_true'] at ends
        exact .cons ⟨by simpa using some, ends.1 ▸ through⟩ (ih rfl)
    · rename_i inside
      refine ih ?_
      rw [readThrough_append, through, Option.bind_some, readThrough, if_neg inside, readThrough]

theorem TokenRow.sublist {kept : List Text} (row : TokenRow unicode tokens) (sub : kept.Sublist tokens) :
    TokenRow unicode kept := by
  induction row generalizing kept with
  | nil => exact sublist_nil.mp sub ▸ .nil
  | last one =>
    rcases sublist_singleton.mp sub with rfl | rfl
    · exact .nil
    · exact .last one
  | cons closed _ ih =>
    cases sub with
    | cons _ sub => exact ih sub
    | cons_cons _ sub => exact .cons closed (ih sub)

theorem tokenize_token (one : IsToken unicode token quoted) : tokenize unicode token = [token] := by
  have read : tokenizeFrom unicode _ [] (token ++ []) = tokenizeFrom unicode _ ([] ++ token) [] :=
    tokenizeFrom_through one.through []
  rw [append_nil, nil_append, tokenizeFrom, if_neg (by simpa using one.nonempty)] at read
  exact read

/-- Tokens that are joined by spaces are read back. -/
theorem TokenRow.tokenize_join (row : TokenRow unicode tokens) (marks : unicode.KeepsMarks) :
    tokenize unicode ([' '].intercalate tokens) = tokens := by
  induction row with
  | nil => rfl
  | last one => simpa using tokenize_token one
  | @cons token rest closed row ih =>
    cases rest with
    | nil => simpa using tokenize_token closed
    | cons next rest =>
      have nonempty : token.isEmpty = false := by simpa using closed.nonempty
      rw [intercalate_cons_cons, append_assoc, tokenize, tokenizeFrom_through closed.through,
        nil_append, singleton_append, tokenizeFrom, marks.space, nonempty]
      exact congrArg (token :: ·) ih

end Tokens

section Trimming

variable {unicode : Unicode} {token text head tail value : Text} {tokens : List Text} {quoted after : Bool}

theorem trimEnd_append_tail (unicode : Unicode) (token : Text) :
    ∃ blanks, token = trimEnd unicode token ++ blanks ∧ ∀ c ∈ blanks, unicode.isWhitespace c = true := by
  refine ⟨token.rtakeWhile unicode.isWhitespace, (rdropWhile_append_rtakeWhile ..).symm, fun c member => ?_⟩
  exact mem_rtakeWhile_imp member

theorem IsToken.head_solid (one : IsToken unicode token quoted) :
    ∃ c rest, token = c :: rest ∧ unicode.isWhitespace c = false := by
  obtain ⟨nonempty, through⟩ := one
  cases token with
  | nil => exact absurd rfl nonempty
  | cons c rest =>
    rw [readThrough] at through
    split at through
    · cases through
    · rename_i solid
      exact ⟨c, rest, rfl, by simpa using solid⟩

theorem IsToken.trimEnd (one : IsToken unicode token quoted) :
    ∃ after, IsToken unicode (trimEnd unicode token) after := by
  obtain ⟨blanks, split, blank⟩ := trimEnd_append_tail unicode token
  have through := one.through
  rw [split, readThrough_append] at through
  obtain ⟨after, read, -⟩ := Option.bind_eq_some_iff.mp through
  refine ⟨after, fun empty => ?_, read⟩
  obtain ⟨c, rest, rfl, solid⟩ := one.head_solid
  rw [empty, nil_append] at split
  exact absurd (blank c (split ▸ mem_cons_self)) (by simp [solid])

/-- A token that closes its quotes does not end in white space. -/
theorem IsToken.trimEnd_closed (one : IsToken unicode token false) (marks : unicode.KeepsMarks) :
    Query.trimEnd unicode token = token := by
  obtain ⟨front, last, rfl⟩ := eq_nil_or_concat' token |>.resolve_left one.nonempty
  have through := one.through
  rw [readThrough_append] at through
  obtain ⟨quoted, -, read⟩ := Option.bind_eq_some_iff.mp through
  rw [readThrough] at read
  refine rdropWhile_concat_neg _ _ _ fun blank => ?_
  by_cases mark : last = '"'
  · exact absurd blank (by simp [mark, marks.quote])
  · cases quoted <;> simp [blank, mark, readThrough] at read

theorem TokenRow.trimLast (row : TokenRow unicode tokens) : TokenRow unicode (trimLast unicode tokens) := by
  induction row with
  | nil => exact .nil
  | last one => exact .last one.trimEnd.choose_spec
  | @cons token rest closed row ih =>
    cases rest with
    | nil => exact .last closed.trimEnd.choose_spec
    | cons next rest => exact .cons closed ih

theorem TokenRow.join_solid {token : Text} (row : TokenRow unicode (token :: tokens)) :
    ∃ c rest, [' '].intercalate (token :: tokens) = c :: rest ∧ unicode.isWhitespace c = false := by
  have ⟨c, rest, same, solid⟩ : ∃ c rest, token = c :: rest ∧ unicode.isWhitespace c = false := by
    cases row with
    | last one => exact one.head_solid
    | cons closed _ => exact closed.head_solid
  cases tokens with
  | nil => exact ⟨c, rest, by simpa using same, solid⟩
  | cons next tokens => exact ⟨c, _, by rw [intercalate_cons_cons, same]; rfl, solid⟩

theorem trimEnd_append {c : Char} (member : c ∈ text) (solid : unicode.isWhitespace c = false) (front : Text) :
    trimEnd unicode (front ++ text) = front ++ trimEnd unicode text := by
  have stops : (text.reverse.dropWhile unicode.isWhitespace).isEmpty = false := by
    rw [isEmpty_eq_false_iff, ne_eq, dropWhile_eq_nil_iff]
    intro blank
    exact absurd (blank c (mem_reverse.mpr member)) (by simp [solid])
  unfold trimEnd rdropWhile
  rw [reverse_append, dropWhile_append, stops]
  simp

theorem TokenRow.trimEnd_join (row : TokenRow unicode tokens) :
    trimEnd unicode ([' '].intercalate tokens) = [' '].intercalate (Query.trimLast unicode tokens) := by
  induction row with
  | nil => rfl
  | last one => simp [Query.trimLast]
  | @cons token rest closed row ih =>
    cases rest with
    | nil => simp [Query.trimLast]
    | cons next rest =>
      obtain ⟨c, later, joined, solid⟩ := row.join_solid
      have trimmed := trimEnd_append (joined ▸ mem_cons_self) solid (token ++ [' '])
      rw [intercalate_cons_cons, trimmed, ih]
      cases rest <;> exact intercalate_cons_cons.symm

/-- Trimming the joined tokens trims the last one. -/
theorem TokenRow.trim_join (row : TokenRow unicode tokens) :
    trim unicode ([' '].intercalate tokens) = [' '].intercalate (Query.trimLast unicode tokens) := by
  rw [← row.trimEnd_join]
  cases tokens with
  | nil => rfl
  | cons token tokens =>
    obtain ⟨c, rest, joined, solid⟩ := row.join_solid
    rw [trim, joined, dropWhile_cons_of_neg (by simp [solid]), trimEnd]

end Trimming

section OpenQuotes

variable {unicode : Unicode} {token text head tail value : Text} {quoted after : Bool}

/-- The state of the quotes after a text. -/
def quoteAfter (quoted : Bool) (text : Text) : Bool := text.foldl (fun now c => if c = '"' then !now else now) quoted

theorem readThrough_quoteAfter (through : readThrough unicode quoted text = some after) :
    quoteAfter quoted text = after := by
  induction text generalizing quoted with
  | nil => exact Option.some.inj through
  | cons c text ih =>
    rw [readThrough] at through
    split at through
    · cases through
    · exact ih through

theorem quoteAfter_free (free : '"' ∉ text) : quoteAfter quoted text = quoted := by
  induction text with
  | nil => rfl
  | cons c text ih =>
    obtain ⟨other, free⟩ := ne_and_not_mem_of_not_mem_cons free
    rw [quoteAfter, foldl_cons, if_neg (Ne.symm other)]
    exact ih free

theorem quoteAfter_append (first second : Text) :
    quoteAfter quoted (first ++ second) = quoteAfter (quoteAfter quoted first) second :=
  foldl_append

/-- Taking off two quotes leaves the odd one. -/
theorem quote_mem_unquote (odd : quoteAfter false value = true) : '"' ∈ unquote value := by
  by_contra free
  unfold unquote at free
  split at free
  · rename_i framed
    simp only [Bool.and_eq_true, decide_eq_true_eq] at framed
    obtain ⟨⟨long, first⟩, last⟩ := framed
    obtain ⟨rest, rfl⟩ := head?_eq_some_iff.mp first
    obtain ⟨inner, split⟩ := getLast?_eq_some_iff.mp last
    cases inner with
    | nil => simp [show rest = [] by simpa using split] at long
    | cons c inner =>
      have ends : rest = inner ++ ['"'] := (cons.inj split).2
      rw [tail_cons, ends, dropLast_concat] at free
      subst ends
      rw [quoteAfter, foldl_cons, foldl_append] at odd
      have inside : foldl (fun now c => if c = '"' then !now else now) true inner = true := quoteAfter_free free
      simp [inside] at odd
  · rw [quoteAfter_free free] at odd
    cases odd

theorem nodeKindFromStr_quote (mark : '"' ∈ value) : nodeKindFromStr value = none := by
  have plain : ∀ kind ∈ NodeKind.all, '"' ∉ kind.asStr.toList := by decide
  refine find?_eq_none.mpr fun kind member same => plain kind member ?_
  rwa [of_decide_eq_true same]

theorem languageFromStr_quote (mark : '"' ∈ value) : languageFromStr value = none := by
  have plain : ∀ language ∈ Language.all, '"' ∉ language.asStr.toList := by decide
  refine find?_eq_none.mpr fun language member same => plain language member ?_
  rwa [of_decide_eq_true same]

theorem splitOnce_concat (free : ':' ∉ head) : Text.splitOnce (head ++ ':' :: tail) ':' = some (head, tail) := by
  have before : ∀ c ∈ head, decide (c ≠ ':') = true := fun c member => by
    simpa using fun same : c = ':' => free (same ▸ member)
  rw [Text.splitOnce, if_pos (by simp), takeWhile_append_of_pos before, dropWhile_append_of_pos before]
  simp

/-- A token with an odd quote is a filter only by its key. -/
theorem filterOf_odd (marks : unicode.KeepsMarks) (free : ':' ∉ head)
    (odd : quoteAfter false (head ++ ':' :: tail) = true) : filterOf unicode (head ++ ':' :: tail) = none ↔
      head = [] ∨ unicode.toLowercase head ≠ "path".toList ∧ unicode.toLowercase head ≠ "name".toList := by
  simp only [filterOf, splitOnce_concat free]
  by_cases quoted : '"' ∈ head
  · have mark := marks.lowerQuote head quoted
    have other (key : Text) (plain : '"' ∉ key) : unicode.toLowercase head ≠ key := fun same => plain (same ▸ mark)
    refine iff_of_true ?_ (.inr ⟨other _ (by decide), other _ (by decide)⟩)
    rw [filterOfPair, if_neg (other _ (by decide)), if_neg (not_or.mpr ⟨other _ (by decide), other _ (by decide)⟩),
      if_neg (other _ (by decide)), if_neg (other _ (by decide))]
    split_ifs <;> rfl
  · have odd : quoteAfter false tail = true := by
      rw [quoteAfter_append, quoteAfter_free quoted] at odd
      exact odd
    have mark := quote_mem_unquote odd
    have some : tail ≠ [] := fun empty => by
      subst empty
      cases odd
    rw [if_congr (or_iff_left some) rfl rfl, filterOfPair, if_neg (ne_nil_of_mem mark), nodeKindFromStr_quote mark,
      languageFromStr_quote (marks.lowerQuote _ mark)]
    split_ifs with empty kind language path name
    · exact iff_of_true rfl (.inl empty)
    · exact iff_of_true rfl (.inr ⟨kind ▸ by decide, kind ▸ by decide⟩)
    · refine iff_of_true rfl (.inr ?_)
      rcases language with same | same <;> exact ⟨same ▸ by decide, same ▸ by decide⟩
    · exact iff_of_false (by simp) (not_or.mpr ⟨empty, fun other => other.1 path⟩)
    · exact iff_of_false (by simp) (not_or.mpr ⟨empty, fun other => other.2 name⟩)
    · exact iff_of_true rfl (.inr ⟨path, name⟩)

/-- A token that stays text stays text without the white space that ends it. -/
theorem IsToken.filterOf_trimEnd (one : IsToken unicode token quoted) (marks : unicode.KeepsMarks)
    (kept : filterOf unicode token = none) : filterOf unicode (Query.trimEnd unicode token) = none := by
  cases quoted with
  | false => rwa [one.trimEnd_closed marks]
  | true =>
    obtain ⟨blanks, split, blank⟩ := trimEnd_append_tail unicode token
    generalize Query.trimEnd unicode token = short at split ⊢
    by_cases colon : ':' ∈ short
    · obtain ⟨head, tail, rfl, free⟩ := eq_append_cons_of_mem colon
      have odd := readThrough_quoteAfter one.through
      have unmarked : '"' ∉ blanks := fun member => by simpa [marks.quote] using blank _ member
      have shortOdd : quoteAfter false (head ++ ':' :: tail) = true := by
        rw [split, quoteAfter_append, quoteAfter_free unmarked] at odd
        exact odd
      rw [split, append_assoc, cons_append] at kept odd
      exact (filterOf_odd marks free shortOdd).mpr ((filterOf_odd marks free odd).mp kept)
    · rw [filterOf, Text.splitOnce, if_neg colon]

end OpenQuotes

section Residual

variable {unicode : Unicode} {tokens : List Text}

/-- Trimming the last token makes no filter of it. -/
theorem TokenRow.trimLast_kept (row : TokenRow unicode tokens) (marks : unicode.KeepsMarks)
    (kept : ∀ token ∈ tokens, filterOf unicode token = none) :
    ∀ token ∈ Query.trimLast unicode tokens, filterOf unicode token = none := by
  induction row with
  | nil => exact kept
  | last one =>
    intro token member
    obtain rfl := mem_singleton.mp member
    exact one.filterOf_trimEnd marks (kept _ mem_cons_self)
  | @cons token rest closed row ih =>
    cases rest with
    | nil =>
      intro token member
      obtain rfl := mem_singleton.mp member
      exact closed.filterOf_trimEnd marks (kept _ mem_cons_self)
    | cons next rest =>
      intro other member
      rcases mem_cons.mp member with rfl | member
      · exact kept _ mem_cons_self
      · exact ih (fun token member => kept token (mem_cons_of_mem _ member)) other member

theorem trimLast_trimLast : Query.trimLast unicode (Query.trimLast unicode tokens) = Query.trimLast unicode tokens := by
  induction tokens with
  | nil => rfl
  | cons token rest ih =>
    cases rest with
    | nil => simp [Query.trimLast, trimEnd, rdropWhile_idempotent]
    | cons next rest =>
      have ⟨first, later, same⟩ : ∃ first later, Query.trimLast unicode (next :: rest) = first :: later := by
        cases rest <;> exact ⟨_, _, rfl⟩
      rw [same] at ih
      rw [Query.trimLast, same, Query.trimLast, ih]

/-- Tokens that are no filters are a query of only text, but for the white space that ends the last one. -/
theorem TokenRow.parseQuery_join (row : TokenRow unicode tokens) (marks : unicode.KeepsMarks)
    (kept : ∀ token ∈ tokens, filterOf unicode token = none) :
    parseQuery unicode ([' '].intercalate tokens) = .of [] ([' '].intercalate (Query.trimLast unicode tokens)) := by
  have none : tokens.filterMap (filterOf unicode) = [] := filterMap_eq_nil_iff.mpr kept
  have all : keptTokens unicode tokens = tokens := filter_eq_self.mpr fun token member => by
    simp [kept token member]
  rw [parseQuery_eq, row.tokenize_join marks, none, all, row.trim_join]

theorem tokenize_row (raw : Text) : TokenRow unicode (tokenize unicode raw) := tokenizeFrom_row raw rfl

/-- Every token of a query is one filter or stays in the text in its place, only the white space that ends the last
one is trimmed, and the text read as a query is that text without filters. -/
theorem residual_text_holds_no_filter (marks : unicode.KeepsMarks) (raw : Text) : let tokens := tokenize unicode raw
    let text := (parseQuery unicode raw).text
    parseQuery unicode raw = .of (tokens.filterMap (filterOf unicode)) text ∧
      text = [' '].intercalate (Query.trimLast unicode (keptTokens unicode tokens)) ∧
      tokenize unicode text = Query.trimLast unicode (keptTokens unicode tokens) ∧
      parseQuery unicode text = .of [] text := by
  intro tokens text
  have row : TokenRow unicode (keptTokens unicode tokens) := (tokenize_row raw).sublist filter_sublist
  have kept : ∀ token ∈ keptTokens unicode tokens, filterOf unicode token = none := fun token member => by
    simpa using (mem_filter.mp member).2
  have joined : text = [' '].intercalate (Query.trimLast unicode (keptTokens unicode tokens)) := by
    rw [← row.trim_join]
    exact congrArg ParsedQuery.text (parseQuery_eq raw)
  refine ⟨?_, joined, ?_, ?_⟩
  · rw [joined, ← row.trim_join]
    exact parseQuery_eq raw
  · rw [joined, row.trimLast.tokenize_join marks]
  · rw [joined, row.trimLast.parseQuery_join marks (row.trimLast_kept marks kept), trimLast_trimLast]

theorem ascii_keepsMarks : Unicode.ascii.KeepsMarks where
  space := rfl
  quote := rfl
  colon := rfl
  lowerQuote _ member := mem_map.mpr ⟨'"', member, rfl⟩

/-- A known kind is taken out of the query and an unknown one stays. -/
theorem known_kind_taken_out :
    parseQuery .ascii "kind:class kind:none \"a b\" foo".toList = .of [.kind .class_] "kind:none \"a b\" foo".toList ∧
      parseQuery .ascii "kind:none \"a b\" foo".toList = .of [] "kind:none \"a b\" foo".toList := by
  have residual := residual_text_holds_no_filter ascii_keepsMarks "kind:class kind:none \"a b\" foo".toList
  have read : parseQuery .ascii "kind:class kind:none \"a b\" foo".toList =
      .of [.kind .class_] "kind:none \"a b\" foo".toList := by decide
  have text : (parseQuery .ascii "kind:class kind:none \"a b\" foo".toList).text = "kind:none \"a b\" foo".toList := by
    rw [read]
    rfl
  exact ⟨read, text ▸ residual.2.2.2⟩

/-- A quote that stays open reads the white space up to the end, which trimming takes off again. -/
theorem open_quote_loses_blank : ¬ ∀ raw : Text, ∀ token ∈ tokenize .ascii raw,
      (filterOf .ascii token).isSome ∨ token <:+: (parseQuery .ascii raw).text := by
  intro whole
  exact absurd (whole "\"a ".toList "\"a ".toList (by decide)) (by decide)

end Residual

end Codegraph.Query
