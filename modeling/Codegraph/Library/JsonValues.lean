import Codegraph.Library.JsonDocuments
import Mathlib.Algebra.BigOperators.Group.List.Basic
import Mathlib.Algebra.GroupWithZero.Nat
import Mathlib.Data.List.Nodup
import Mathlib.Data.List.Perm.Subperm

/- This file gives JSON documents their values. -/

namespace JsonTokens
open List

section Unescaping

/-- A character of a string, or a UTF-16 unit that an escape names. -/
inductive Piece where
  | char (c : Char)
  | unit (code : Nat)
  deriving DecidableEq

def hexDigit (c : Char) : Option Nat :=
  if '0' ≤ c ∧ c ≤ '9' then some (c.toNat - '0'.toNat)
  else if 'a' ≤ c ∧ c ≤ 'f' then some (c.toNat - 'a'.toNat + 10)
  else if 'A' ≤ c ∧ c ≤ 'F' then some (c.toNat - 'A'.toNat + 10)
  else none

def hexUnit (digits : List Char) : Option Nat := digits.foldlM (fun code c => (hexDigit c).map (16 * code + ·)) 0

theorem hexDigit_of_hexUnit {digits : List Char} {code : Nat} (read : hexUnit digits = some code) {c : Char}
    (member : c ∈ digits) : ∃ digit, hexDigit c = some digit := by
  have found : ∀ (digits : List Char) (above : Nat),
    digits.foldlM (fun code c => (hexDigit c).map (16 * code + ·)) above = some code →
      c ∈ digits → ∃ digit, hexDigit c = some digit := by
    intro digits
    induction digits with
    | nil => simp
    | cons first rest ih =>
      intro above read member
      obtain ⟨next, stepped, later⟩ := Option.bind_eq_some_iff.mp (List.foldlM_cons (m := Option) ▸ read)
      obtain ⟨digit, isDigit, -⟩ := Option.map_eq_some_iff.mp stepped
      rcases mem_cons.mp member with rfl | member
      · exact ⟨digit, isDigit⟩
      · exact ih next later member
  exact found digits 0 read member

def shortEscape (c : Char) : Option Char :=
  if c = '"' ∨ c = '\\' ∨ c = '/' then some c
  else if c = 'b' then some '\x08'
  else if c = 'f' then some '\x0c'
  else if c = 'n' then some '\n'
  else if c = 'r' then some '\r'
  else if c = 't' then some '\t'
  else none

/-- A raw string body, with its escapes resolved. Control characters have to be escaped. -/
def pieces : List Char → Option (List Piece)
  | [] => some []
  | c :: rest =>
    if c = '\\' then
      match rest with
      | [] => none
      | mark :: more =>
        if mark = 'u' then
          match more with
          | a :: b :: c :: d :: tail => (hexUnit [a, b, c, d]).bind fun code => (pieces tail).map (.unit code :: ·)
          | _ => none
        else (shortEscape mark).bind fun named => (pieces more).map (.char named :: ·)
    else if c = '"' ∨ c.toNat < 0x20 then none
    else (pieces rest).map (.char c :: ·)

def isHigh (code : Nat) : Bool := 0xD800 ≤ code && code < 0xDC00

def isLow (code : Nat) : Bool := 0xDC00 ≤ code && code < 0xE000

/-- Two surrogates make one character, and a surrogate that stands alone makes none. -/
def combine : List Piece → Option (List Char)
  | [] => some []
  | .char c :: rest => (combine rest).map (c :: ·)
  | .unit code :: rest =>
    if isHigh code then
      match rest with
      | .unit low :: more =>
        if isLow low then (combine more).map (Char.ofNat (0x10000 + (code - 0xD800) * 0x400 + (low - 0xDC00)) :: ·)
          else none
      | _ => none
    else if isLow code then none
    else (combine rest).map (Char.ofNat code :: ·)

/-- The text that a raw string body stands for. -/
def unescape (body : List Char) : Option (List Char) := (pieces body).bind combine

/-- A raw string body spells its pieces one by one. -/
inductive Spells : List Char → List Piece → Prop where
  | nil : Spells [] []
  | plain {c : Char} {rest : List Char} {found : List Piece}
      (backslash : c ≠ '\\') (quote : c ≠ '"') (control : ¬ c.toNat < 0x20)
      (tail : Spells rest found) : Spells (c :: rest) (.char c :: found)
  | short {mark named : Char} {rest : List Char} {found : List Piece}
      (names : shortEscape mark = some named) (tail : Spells rest found) :
    Spells ('\\' :: mark :: rest) (.char named :: found)
  | unit {a b c d : Char} {code : Nat} {rest : List Char} {found : List Piece}
      (names : hexUnit [a, b, c, d] = some code)
      (tail : Spells rest found) : Spells ('\\' :: 'u' :: a :: b :: c :: d :: rest) (.unit code :: found)

/-- A string that is read as pieces spells them. -/
theorem spells_of_pieces {body : List Char} {found : List Piece} (read : pieces body = some found) :
    Spells body found := by
  induction body using pieces.induct generalizing found with
  | case1 =>
    cases read
    exact .nil
  | case2 => simp [pieces] at read
  | case3 a b c d tail ih =>
    rw [pieces.eq_def] at read
    simp only [if_true] at read
    obtain ⟨code, names, later⟩ := Option.bind_eq_some_iff.mp read
    obtain ⟨more, behind, rfl⟩ := Option.map_eq_some_iff.mp later
    exact .unit names (ih behind)
  | case4 more short =>
    rw [pieces.eq_def] at read
    simp at read
  | case5 mark more other ih =>
    rw [pieces.eq_def] at read
    simp only [if_true, if_neg other] at read
    obtain ⟨named, names, later⟩ := Option.bind_eq_some_iff.mp read
    obtain ⟨found, behind, rfl⟩ := Option.map_eq_some_iff.mp later
    exact .short names (ih behind)
  | case6 mark more backslash closed =>
    rw [pieces.eq_def] at read
    simp [backslash, closed] at read
  | case7 mark more backslash plain ih =>
    rw [pieces.eq_def] at read
    simp only [if_neg backslash, if_neg plain] at read
    obtain ⟨found, behind, rfl⟩ := Option.map_eq_some_iff.mp read
    exact .plain backslash (fun quote => plain (.inl quote)) (fun control => plain (.inr control)) (ih behind)

theorem pieces_of_spells {body : List Char} {found : List Piece} (spells : Spells body found) :
    pieces body = some found := by
  induction spells with
  | nil => rfl
  | plain backslash quote control _ ih =>
    rw [pieces.eq_def]
    simp [backslash, quote, control, ih]
  | @short mark named rest found names _ ih =>
    have other : mark ≠ 'u' := by
      rintro rfl
      cases names
    rw [pieces.eq_def]
    simp [other, names, ih]
  | unit names _ ih =>
    rw [pieces.eq_def]
    simp [names, ih]

/-- Some pieces are rewritten when other characters take the places of some of its characters. -/
inductive Rewritten : List Piece → List Piece → Prop where
  | nil : Rewritten [] []
  | unit (code : Nat) {before after : List Piece} (rest : Rewritten before after) :
      Rewritten (.unit code :: before) (.unit code :: after)
  | char (c : Char) (texts : List Char) {before after : List Piece} (rest : Rewritten before after) :
    Rewritten (.char c :: before) (texts.map .char ++ after)

theorem combine_plain {code : Nat} (high : ¬ isHigh code = true) (low : ¬ isLow code = true) (rest : List Piece) :
    combine (.unit code :: rest) = (combine rest).map (Char.ofNat code :: ·) := by
  rw [combine.eq_def]
  simp only [if_neg high, if_neg low]

theorem combine_chars (texts : List Char) (rest : List Piece) :
    combine (texts.map .char ++ rest) = (combine rest).map (texts ++ ·) := by
  induction texts with
  | nil => simp
  | cons c texts ih =>
    rw [map_cons, cons_append, combine, ih, Option.map_map]
    rfl

/-- A rewritten string is as much longer as its pieces are more. -/
theorem combine_rewritten {before after : List Piece} {text : List Char} (rewritten : Rewritten before after)
    (combined : combine before = some text) :
    ∃ other, combine after = some other ∧ other.length + before.length = text.length + after.length := by
  induction before using combine.induct generalizing after text with
  | case1 =>
    cases rewritten
    exact ⟨[], rfl, by simp_all [combine]⟩
  | case2 c rest ih =>
    obtain ⟨⟩ | ⟨⟩ | ⟨_, texts, rewritten⟩ := rewritten
    obtain ⟨tail, found, rfl⟩ := Option.map_eq_some_iff.mp combined
    obtain ⟨other, again, lengths⟩ := ih rewritten found
    refine ⟨texts ++ other, by rw [combine_chars, again]; rfl, ?_⟩
    simp only [length_append, length_cons, length_map]
    omega
  | case3 code high low more isLow ih =>
    obtain ⟨⟩ | ⟨_, ⟨⟩ | ⟨_, rewritten⟩⟩ := rewritten
    simp only [combine, if_pos high, if_pos isLow] at combined ⊢
    obtain ⟨tail, found, rfl⟩ := Option.map_eq_some_iff.mp combined
    obtain ⟨other, again, lengths⟩ := ih rewritten found
    refine ⟨_, by rw [again]; rfl, ?_⟩
    simp only [length_cons]
    omega
  | case4 code high low more apart => simp [combine, high, apart] at combined
  | case5 code rest high single =>
    rw [combine.eq_def] at combined
    simp only [if_pos high, reduceCtorEq] at combined
  | case6 code rest high low =>
    rw [combine.eq_def] at combined
    simp only [if_neg high, if_pos low, reduceCtorEq] at combined
  | case7 code rest high low ih =>
    obtain ⟨⟩ | ⟨_, rewritten⟩ := rewritten
    rw [combine_plain high low] at combined ⊢
    obtain ⟨tail, found, rfl⟩ := Option.map_eq_some_iff.mp combined
    obtain ⟨other, again, lengths⟩ := ih rewritten found
    refine ⟨Char.ofNat code :: other, by rw [again]; rfl, ?_⟩
    simp only [length_cons]
    omega

end Unescaping

/-- An object lists its members in the order of their keys. -/
inductive Value (Number : Type) where
  | null
  | bool (flag : Bool)
  | number (n : Number)
  | string (text : List Char)
  | array (items : List (Value Number))
  | object (members : List (List Char × Value Number))

namespace Value

variable {Number : Type}

def asObject : Value Number → Option (List (List Char × Value Number))
  | .object members => some members
  | _ => none

def asArray : Value Number → Option (List (Value Number))
  | .array items => some items
  | _ => none

def asStr : Value Number → Option (List Char)
  | .string text => some text
  | _ => none

/-- The member of an object with a key. -/
def get (value : Value Number) (key : List Char) : Option (Value Number) :=
  value.asObject.bind fun members => (members.find? fun member => member.1 = key).map Prod.snd

end Value

/-- A map is in the order of its keys, and a later value of a key takes the place of the earlier one. -/
def insertMember {V : Type} : List (List Char × V) → List Char → V → List (List Char × V)
  | [], key, value => [(key, value)]
  | (old, kept) :: rest, key, value =>
    if key = old then (key, value) :: rest
    else if key < old then (key, value) :: (old, kept) :: rest
    else (old, kept) :: insertMember rest key value

def collect {V : Type} (members : List (List Char × V)) : List (List Char × V) :=
  members.foldl (fun done member => insertMember done member.1 member.2) []

/-- A reader decides what the words that are not names stand for, and how deep documents may be nested. -/
structure Reader (Number : Type) where
  numberOf : List Char → Option Number
  depth : Nat

/-- This reader takes every word for a number that it keeps as it is written. -/
def wordReader : Reader (List Char) := ⟨some, 128⟩

namespace Doc

variable {Number : Type} (reader : Reader Number)

def wordValue (letters : List Char) : Option (Value Number) :=
  if letters = ['n', 'u', 'l', 'l'] then some .null
  else if letters = ['t', 'r', 'u', 'e'] then some (.bool true)
  else if letters = ['f', 'a', 'l', 's', 'e'] then some (.bool false)
  else (reader.numberOf letters).map .number

mutual

/-- The value of a document when so many levels may still be opened. -/
def valueAt (depth : Nat) : Doc → Option (Value Number)
  | .word letters => wordValue reader letters
  | .string body => (unescape body).map .string
  | .array items => if depth ≤ 1 then none else (itemValues (depth - 1) items).map .array
  | .object members =>
    if depth ≤ 1 then none else (memberValues (depth - 1) members).map fun values => .object (collect values)

def itemValues (depth : Nat) : List Doc → Option (List (Value Number))
  | [] => some []
  | doc :: rest => (doc.valueAt depth).bind fun value => (itemValues depth rest).map (value :: ·)

def memberValues (depth : Nat) : List (List Char × Doc) → Option (List (List Char × Value Number))
  | [] => some []
  | (key, doc) :: rest => (unescape key).bind fun name => (doc.valueAt depth).bind fun value =>
    (memberValues depth rest).map ((name, value) :: ·)

end

def value (doc : Doc) : Option (Value Number) := doc.valueAt reader reader.depth

mutual

/-- No object has two members of one name. -/
def Distinct : Doc → Prop
  | .word _ => True
  | .string _ => True
  | .array items => ItemsDistinct items
  | .object members => (members.map fun (key, _) => unescape key).Nodup ∧ MembersDistinct members

def ItemsDistinct : List Doc → Prop
  | [] => True
  | doc :: rest => doc.Distinct ∧ ItemsDistinct rest

def MembersDistinct : List (List Char × Doc) → Prop
  | [] => True
  | (_, doc) :: rest => doc.Distinct ∧ MembersDistinct rest

end

mutual

/-- The document with its string bodies and keys rewritten. -/
def rewrite (f : List Char → List Char) : Doc → Doc
  | .word letters => .word letters
  | .string body => .string (f body)
  | .array items => .array (rewriteItems f items)
  | .object members => .object (rewriteMembers f members)

def rewriteItems (f : List Char → List Char) : List Doc → List Doc
  | [] => []
  | doc :: rest => doc.rewrite f :: rewriteItems f rest

def rewriteMembers (f : List Char → List Char) : List (List Char × Doc) → List (List Char × Doc)
  | [] => []
  | (key, doc) :: rest => (f key, doc.rewrite f) :: rewriteMembers f rest

end

end Doc

/-- The value of a JSON text. -/
def readText {Number : Type} (reader : Reader Number) (text : List Char) : Option (Value Number) :=
  ((lex text).bind parse).bind (Doc.value reader)

/-- A text whose tokens are those of a document has the document's value. -/
theorem readText_of_lex {Number : Type} {reader : Reader Number} {text : List Char} {doc : Doc}
    (lexed : lex text = some doc.tokens) : readText reader text = doc.value reader := by
  rw [readText, lexed, Option.bind_some, parse_tokens, Option.bind_some]

/-- The document of a text with comments and trailing commas. -/
def commentedDoc (text : List Char) : Option Doc := (lexCommented text).bind fun tokens => parse (dropTrailing tokens)

def rewriteToken (f : List Char → List Char) : Token → Token
  | .string body => .string (f body)
  | token => token

section Collecting

variable {V : Type} {members done : List (List Char × V)} {key : List Char} {value : V}

theorem keys_insertMember {name : List Char} :
    name ∈ (insertMember done key value).map Prod.fst ↔ name = key ∨ name ∈ done.map Prod.fst := by
  induction done with
  | nil => simp [insertMember]
  | cons first rest ih =>
    obtain ⟨old, kept⟩ := first
    rw [insertMember]
    split_ifs with same before
    · simp [same]
    · simp
    · rw [map_cons, map_cons, mem_cons, mem_cons, ih]
      exact or_left_comm

theorem insertMember_fresh (fresh : key ∉ done.map Prod.fst) :
    (insertMember done key value).Perm ((key, value) :: done) := by
  induction done with
  | nil => exact .refl _
  | cons first rest ih =>
    obtain ⟨old, kept⟩ := first
    obtain ⟨other, later⟩ := not_or.mp (mem_cons.not.mp fresh)
    rw [insertMember, if_neg other]
    split
    · exact .refl _
    · exact ((ih later).cons _).trans (.swap _ _ _)

theorem foldl_insertMember (nodup : ((done ++ members).map Prod.fst).Nodup) :
    (members.foldl (fun done member => insertMember done member.1 member.2) done).Perm (done ++ members) := by
  induction members generalizing done with
  | nil => simp
  | cons first members ih =>
    have fresh : first.1 ∉ done.map Prod.fst := by
      rw [map_append] at nodup
      exact fun member => (nodup_append.mp nodup).2.2 first.1 member first.1 (by simp) rfl
    have moved : (insertMember done first.1 first.2 ++ members).Perm (done ++ first :: members) :=
      ((insertMember_fresh fresh).append_right members).trans perm_middle.symm
    exact (ih ((moved.map Prod.fst).nodup_iff.mpr nodup)).trans moved

/-- Members of different names are all kept. -/
theorem collect_of_nodup (nodup : (members.map Prod.fst).Nodup) : (collect members).Perm members := by
  simpa [collect] using @foldl_insertMember V members [] (by simpa using nodup)

theorem keys_collect {name : List Char} : name ∈ (collect members).map Prod.fst ↔ name ∈ members.map Prod.fst := by
  have kept (done : List (List Char × V)) :
      name ∈ (members.foldl (fun done member => insertMember done member.1 member.2) done).map Prod.fst ↔
        name ∈ done.map Prod.fst ∨ name ∈ members.map Prod.fst := by
    induction members generalizing done with
    | nil => simp
    | cons first members ih =>
      rw [foldl_cons, ih, keys_insertMember, map_cons, mem_cons, or_comm (a := name = first.1), or_assoc]
  simpa [collect] using kept []

/-- As many members give the map of some with different names only when they are the same members. -/
theorem perm_of_collect_eq {others : List (List Char × V)} (names : (members.map Prod.fst).Nodup)
    (lengths : others.length = members.length) (same : collect members = collect others) : others.Perm members := by
  have inside : members.map Prod.fst ⊆ others.map Prod.fst := fun name member =>
    keys_collect.mp (same ▸ keys_collect.mpr member)
  have perm := (subperm_of_subset names inside).perm_of_length_le (by simp [lengths])
  exact (collect_of_nodup (perm.nodup_iff.mp names)).symm.trans (same ▸ collect_of_nodup names)

/-- Members of the same different names in the same order are the same when they are the same in some order. -/
theorem eq_of_perm_of_keys {others : List (List Char × V)} (names : (members.map Prod.fst).Nodup)
    (keys : others.map Prod.fst = members.map Prod.fst) (perm : others.Perm members) : others = members := by
  induction members generalizing others with
  | nil => exact perm.eq_nil
  | cons first members ih =>
    obtain ⟨other, others, rfl⟩ := exists_cons_of_length_eq_add_one perm.length_eq
    obtain ⟨head, tail⟩ := cons.inj keys
    obtain ⟨fresh, nodup⟩ := nodup_cons.mp names
    obtain rfl : other = first := by
      rcases mem_cons.mp (perm.subset mem_cons_self) with here | later
      · exact here
      · exact absurd (mem_map_of_mem later) (head ▸ fresh)
    rw [ih nodup tail perm.cons_inv]

end Collecting

namespace Doc

variable {Number : Type} {reader : Reader Number} {f : List Char → List Char}

section Rewriting

mutual

theorem tokens_rewrite : ∀ doc : Doc, (doc.rewrite f).tokens = doc.tokens.map (rewriteToken f)
  | .word _ => rfl
  | .string _ => rfl
  | .array items => by simp [rewrite, tokens, rewriteToken, itemTokens_rewrite items]
  | .object members => by simp [rewrite, tokens, rewriteToken, memberTokens_rewrite members]

theorem itemTokens_rewrite : ∀ items :
    List Doc, itemTokens (rewriteItems f items) = (itemTokens items).map (rewriteToken f)
  | [] => rfl
  | doc :: rest => by simp [rewriteItems, itemTokens, tokens_rewrite doc, moreItems_rewrite rest]

theorem moreItems_rewrite : ∀ items :
    List Doc, moreItems (rewriteItems f items) = (moreItems items).map (rewriteToken f)
  | [] => rfl
  | doc :: rest => by simp [rewriteItems, moreItems, rewriteToken, tokens_rewrite doc, moreItems_rewrite rest]

theorem memberTokens_rewrite : ∀ members : List (List Char × Doc),
    memberTokens (rewriteMembers f members) = (memberTokens members).map (rewriteToken f)
  | [] => rfl
  | (key, doc) :: rest =>
    by simp [rewriteMembers, memberTokens, rewriteToken, tokens_rewrite doc, moreMembers_rewrite rest]

theorem moreMembers_rewrite : ∀ members : List (List Char × Doc),
    moreMembers (rewriteMembers f members) = (moreMembers members).map (rewriteToken f)
  | [] => rfl
  | (key, doc) :: rest =>
    by simp [rewriteMembers, moreMembers, rewriteToken, tokens_rewrite doc, moreMembers_rewrite rest]

end

/-- Rewritten tokens spell the rewritten document. -/
theorem parse_map_rewriteToken (doc : Doc) : parse (doc.tokens.map (rewriteToken f)) = some (doc.rewrite f) := by
  rw [← tokens_rewrite, parse_tokens]

theorem rewrite_eq_self {doc : Doc} (fixed : ∀ body, .string body ∈ doc.tokens → f body = body) :
    doc.rewrite f = doc := by
  have same : doc.tokens.map (rewriteToken f) = doc.tokens := by
    conv_rhs => rw [← map_id doc.tokens]
    refine map_congr_left fun token member => ?_
    cases token with
    | string body => exact congrArg Token.string (fixed body member)
    | _ => rfl
  exact Option.some.inj ((parse_map_rewriteToken doc).symm.trans ((congrArg parse same).trans (parse_tokens doc)))

end Rewriting

/-- A rewriting that changes the number of pieces along with the text changes what the string stands for. -/
theorem unescape_rewritten {body other text : List Char}
    (rewrites : ∀ before, Spells body before → ∃ after, Spells other after ∧ Rewritten before after ∧
      after.length + body.length = before.length + other.length) (meant : unescape body = some text) :
    ∃ changed, unescape other = some changed ∧ changed.length + body.length = text.length + other.length := by
  obtain ⟨before, read, combined⟩ := Option.bind_eq_some_iff.mp meant
  obtain ⟨after, spells, rewritten, lengths⟩ := rewrites before (spells_of_pieces read)
  obtain ⟨changed, again, more⟩ := combine_rewritten rewritten combined
  exact ⟨changed, by rw [unescape, pieces_of_spells spells, Option.bind_some, again], by omega⟩

section Sharpness

variable {members : List (List Char × Doc)} {values : List (List Char × Value Number)}

/-- A rewriting makes strings longer, or shorter, by as much as the texts that they stand for. -/
structure Sharp (f : List Char → List Char) : Prop where
  lengths : ∀ {body text other}, unescape body = some text → unescape (f body) = some other →
    other.length + body.length = text.length + (f body).length
  fixed : ∀ {body}, (f body).length = body.length → f body = body
  oneWay : (∀ body, body.length ≤ (f body).length) ∨ ∀ body, (f body).length ≤ body.length

/-- Numbers that are one by one at most as large as others have the same sum only when they are the same. -/
theorem eq_of_sum_eq {α : Type} {small large : α → Nat} (le : ∀ item, small item ≤ large item) (items : List α) :
    (items.map small).sum ≤ (items.map large).sum ∧
      ((items.map large).sum = (items.map small).sum → ∀ item ∈ items, large item = small item) := by
  induction items with
  | nil => simp
  | cons first items ih =>
    have here := le first
    simp only [map_cons, sum_cons, forall_mem_cons]
    exact ⟨by omega, fun sums => ⟨by omega, ih.2 (by omega)⟩⟩

theorem names_of_memberValues {depth : Nat} (read : memberValues reader depth members = some values) :
    values.map (some ∘ Prod.fst) = members.map fun (key, _) => unescape key := by
  induction members generalizing values with
  | nil =>
    cases read
    rfl
  | cons first rest ih =>
    obtain ⟨key, doc⟩ := first
    simp only [memberValues, Option.bind_eq_some_iff, Option.map_eq_some_iff] at read
    obtain ⟨name, named, value, -, more, found, rfl⟩ := read
    simp [named, ← ih found]

theorem string_mem_moreItems {items : List Doc} {body : List Char} :
    .string body ∈ moreItems items ↔ .string body ∈ itemTokens items := by
  cases items <;> simp [moreItems, itemTokens]

theorem string_mem_moreMembers {body : List Char} :
    .string body ∈ moreMembers members ↔ .string body ∈ memberTokens members := by
  rcases members with _ | ⟨⟨key, doc⟩, rest⟩ <;> simp [moreMembers, memberTokens]

theorem map_fst_of_memberValues {depth : Nat} (read : memberValues reader depth members = some values)
    (names : (members.map fun (key, _) => unescape key).Nodup) : (values.map Prod.fst).Nodup := by
  rw [← names_of_memberValues read, ← map_map] at names
  exact names.of_map _

theorem length_of_memberValues {depth : Nat}
    (read : memberValues reader depth members = some values) : values.length = members.length := by
  simpa using congrArg length (names_of_memberValues read)

theorem rewriteMembers_eq (members : List (List Char × Doc)) :
    rewriteMembers f members = members.map fun (key, doc) => (f key, doc.rewrite f) := by
  induction members with
  | nil => rfl
  | cons first rest ih => simp [rewriteMembers, ih]

/-- The names grow in all by as much as the keys. -/
theorem sums_of_memberValues {depth : Nat} {others : List (List Char × Value Number)} (sharp : Sharp f)
    (read : memberValues reader depth members = some values)
    (again : memberValues reader depth (rewriteMembers f members) = some others) :
    (others.map fun other => other.1.length).sum + (members.map fun member => member.1.length).sum =
      (values.map fun value => value.1.length).sum + (members.map fun member => (f member.1).length).sum := by
  induction members generalizing values others with
  | nil =>
    cases read
    cases again
    rfl
  | cons first rest ih =>
    obtain ⟨key, doc⟩ := first
    simp only [memberValues, rewriteMembers, Option.bind_eq_some_iff, Option.map_eq_some_iff] at read again
    obtain ⟨name, named, value, -, more, found, rfl⟩ := read
    obtain ⟨newName, renamed, other, -, others, following, rfl⟩ := again
    have here := sharp.lengths named renamed
    have later := ih found following
    simp only [map_cons, sum_cons]
    omega

/-- Members that make the same map are the same members in the same order. -/
theorem eq_of_collect_eq {depth : Nat} {others : List (List Char × Value Number)} (sharp : Sharp f)
    (names : (members.map fun (key, _) => unescape key).Nodup) (read : memberValues reader depth members = some values)
    (again : memberValues reader depth (rewriteMembers f members) = some others)
    (same : collect values = collect others) : others = values := by
  have distinct := map_fst_of_memberValues read names
  have perm := perm_of_collect_eq distinct (by
    rw [length_of_memberValues again, length_of_memberValues read, rewriteMembers_eq, length_map]) same
  have sums := sums_of_memberValues sharp read again
  rw [(perm.map _).sum_eq] at sums
  have kept : ∀ member ∈ members, f member.1 = member.1 := by
    rcases sharp.oneWay with longer | shorter
    · exact fun member inside =>
        sharp.fixed ((eq_of_sum_eq (fun member => longer member.1) _).2 (by omega) member inside)
    · exact fun member inside =>
        sharp.fixed ((eq_of_sum_eq (fun member => shorter member.1) _).2 (by omega) member inside).symm
  have keys : others.map (some ∘ Prod.fst) = values.map (some ∘ Prod.fst) := by
    rw [names_of_memberValues again, names_of_memberValues read, rewriteMembers_eq, map_map]
    exact map_congr_left fun member inside => congrArg unescape (kept member inside)
  refine eq_of_perm_of_keys distinct ?_ perm
  rw [← map_map, ← map_map] at keys
  exact map_injective_iff.mpr (fun _ _ => Option.some.inj) keys

mutual

/-- A rewriting that keeps the value of a document with distinct names rewrites none of its strings. -/
theorem fixed_of_valueAt (sharp : Sharp f) : ∀ (doc : Doc) (depth : Nat)
    (value : Value Number), doc.Distinct → doc.valueAt reader depth = some value →
    (doc.rewrite f).valueAt reader depth = some value → ∀ body, .string body ∈ doc.tokens → f body = body
  | .word _, _, _, _, _, _, _, member => by simp [tokens] at member
  | .string text, depth, value, _, before, after, body, member => by
      obtain rfl : body = text := by simpa [tokens] using member
      obtain ⟨first, found, rfl⟩ := Option.map_eq_some_iff.mp before
      obtain ⟨second, again, same⟩ := Option.map_eq_some_iff.mp after
      exact sharp.fixed (Nat.add_left_cancel (sharp.lengths found (Value.string.inj same ▸ again))).symm
  | .array items, depth, value, distinct, before, after, body, member => by
      simp only [valueAt, rewrite] at before after
      split at before
      · cases before
      · rename_i room
        rw [if_neg room] at after
        obtain ⟨first, found, rfl⟩ := Option.map_eq_some_iff.mp before
        obtain ⟨second, again, same⟩ := Option.map_eq_some_iff.mp after
        exact fixed_of_itemValues sharp items (depth - 1) first distinct found (Value.array.inj same ▸ again) body
          (by simpa [tokens] using member)
  | .object members, depth, value, ⟨names, distinct⟩, before, after, body, member => by
      simp only [valueAt, rewrite] at before after
      split at before
      · cases before
      · rename_i room
        rw [if_neg room] at after
        obtain ⟨first, found, rfl⟩ := Option.map_eq_some_iff.mp before
        obtain ⟨second, again, same⟩ := Option.map_eq_some_iff.mp after
        obtain rfl := eq_of_collect_eq sharp names found again (Value.object.inj same).symm
        exact fixed_of_memberValues sharp members (depth - 1) second distinct found again body
          (by simpa [tokens] using member)

/-- A rewriting that keeps the values of items rewrites none of their strings. -/
theorem fixed_of_itemValues (sharp : Sharp f) : ∀ (items : List Doc) (depth : Nat)
    (values : List (Value Number)), ItemsDistinct items →
    itemValues reader depth items = some values → itemValues reader depth (rewriteItems f items) = some values →
    ∀ body, .string body ∈ itemTokens items → f body = body
  | [], _, _, _, _, _, _, member => by simp [itemTokens] at member
  | doc :: rest, depth, values, ⟨here, later⟩, before, after, body, member => by
      simp only [itemValues, rewriteItems, Option.bind_eq_some_iff, Option.map_eq_some_iff] at before after
      obtain ⟨value, found, more, behind, rfl⟩ := before
      obtain ⟨other, again, others, following, same⟩ := after
      obtain ⟨rfl, rfl⟩ := cons.inj same
      rw [itemTokens, mem_append, string_mem_moreItems] at member
      rcases member with member | member
      · exact fixed_of_valueAt sharp doc depth other here found again body member
      · exact fixed_of_itemValues sharp rest depth others later behind following body member

/-- A rewriting that keeps the values of members rewrites none of their strings. -/
theorem fixed_of_memberValues (sharp : Sharp f) : ∀ (members : List (List Char × Doc)) (depth : Nat)
    (values : List (List Char × Value Number)),
    MembersDistinct members → memberValues reader depth members = some values →
    memberValues reader depth (rewriteMembers f members) = some values → ∀ body, .string body ∈ memberTokens members →
      f body = body
  | [], _, _, _, _, _, _, member => by simp [memberTokens] at member
  | (key, doc) :: rest, depth, values, ⟨here, later⟩, before, after, body, member => by
      simp only [memberValues, rewriteMembers, Option.bind_eq_some_iff, Option.map_eq_some_iff] at before after
      obtain ⟨name, named, value, found, more, behind, rfl⟩ := before
      obtain ⟨newName, renamed, other, again, others, following, same⟩ := after
      obtain ⟨pair, rfl⟩ := cons.inj same
      obtain ⟨rfl, rfl⟩ := Prod.mk.inj pair
      simp only [memberTokens, mem_cons, mem_append, string_mem_moreMembers, reduceCtorEq, false_or,
        Token.string.injEq] at member
      rcases member with rfl | member | member
      · exact sharp.fixed (Nat.add_left_cancel (sharp.lengths named renamed)).symm
      · exact fixed_of_valueAt sharp doc depth other here found again body member
      · exact fixed_of_memberValues sharp rest depth others later behind following body member

end

end Sharpness

end Doc

end JsonTokens
