import Codegraph.Library.JsonTokens

/- This file reads tokens as JSON documents and writes documents as tokens. -/

namespace JsonTokens

/-- The syntax of a JSON text, with its strings and keys as they are written. -/
inductive Doc where
  | word (letters : List Char)
  | string (body : List Char)
  | array (items : List Doc)
  | object (members : List (List Char × Doc))

namespace Doc

mutual

def tokens : Doc → List Token
  | .word letters => [.word letters]
  | .string body => [.string body]
  | .array items => .punct '[' :: itemTokens items
  | .object members => .punct '{' :: memberTokens members

/-- The first item and all that follows it, with the closing bracket. -/
def itemTokens : List Doc → List Token
  | [] => [.punct ']']
  | doc :: rest => doc.tokens ++ moreItems rest

def moreItems : List Doc → List Token
  | [] => [.punct ']']
  | doc :: rest => .punct ',' :: (doc.tokens ++ moreItems rest)

def memberTokens : List (List Char × Doc) → List Token
  | [] => [.punct '}']
  | (key, doc) :: rest => .string key :: .punct ':' :: (doc.tokens ++ moreMembers rest)

def moreMembers : List (List Char × Doc) → List Token
  | [] => [.punct '}']
  | (key, doc) :: rest => .punct ',' :: .string key :: .punct ':' :: (doc.tokens ++ moreMembers rest)

end

end Doc

/-- An array or an object that is still open around the place of the reader. -/
inductive Frame where
  | items (done : List Doc)
  | members (done : List (List Char × Doc)) (key : List Char)

/-- What the reader expects next, or the document that it has just read. -/
inductive Phase where
  | value
  | firstItem
  | firstKey
  | key (done : List (List Char × Doc))
  | colon (done : List (List Char × Doc)) (key : List Char)
  | after (doc : Doc)

abbrev State := Phase × List Frame

/-- A token where a value has to stand. -/
def open_ (frames : List Frame) : Token → Option State
  | .word letters => some (.after (.word letters), frames)
  | .string body => some (.after (.string body), frames)
  | .punct c => if c = '[' then some (.firstItem, frames) else if c = '{' then some (.firstKey, frames) else none

def read : State → Token → Option State
  | (.value, frames), token => open_ frames token
  | (.firstItem, frames), token =>
    if token = .punct ']' then some (.after (.array []), frames) else open_ (.items [] :: frames) token
  | (.firstKey, frames), token =>
    match token with
    | .string key => some (.colon [] key, frames)
    | token => if token = .punct '}' then some (.after (.object []), frames) else none
  | (.key done, frames), token =>
    match token with
    | .string key => some (.colon done key, frames)
    | _ => none
  | (.colon done key, frames), token =>
    if token = .punct ':' then some (.value, .members done key :: frames) else none
  | (.after doc, .items done :: frames), token =>
    if token = .punct ',' then some (.value, .items (done ++ [doc]) :: frames)
    else if token = .punct ']' then some (.after (.array (done ++ [doc])), frames)
    else none
  | (.after doc, .members done key :: frames), token =>
    if token = .punct ',' then some (.key (done ++ [(key, doc)]), frames)
    else if token = .punct '}' then some (.after (.object (done ++ [(key, doc)])), frames)
    else none
  | (.after _, []), _ => none

/-- The reader has read a document when no bracket is open around it. -/
def finished : State → Option Doc
  | (.after doc, []) => some doc
  | _ => none

/-- The document that some tokens spell. -/
def parse (tokens : List Token) : Option Doc := (tokens.foldlM read (.value, [])).bind finished

section Completeness

variable {frames : List Frame} {rest : List Token}

theorem foldlM_cons (state : State) (token : Token) (rest : List Token) :
    (token :: rest).foldlM read state = (read state token).bind fun next => rest.foldlM read next :=
  List.foldlM_cons

theorem foldlM_append (state : State) (first second : List Token) :
    (first ++ second).foldlM read state = (first.foldlM read state).bind fun next => second.foldlM read next :=
  List.foldlM_append

/-- A value never starts with a closing bracket. -/
theorem tokens_head (doc : Doc) : ∃ token more, doc.tokens = token :: more ∧ token ≠ .punct ']' := by
  cases doc <;> simp [Doc.tokens]

theorem foldlM_firstItem (doc : Doc) (frames : List Frame) (rest : List Token) :
    (doc.tokens ++ rest).foldlM read (.firstItem, frames) =
      (doc.tokens ++ rest).foldlM read (.value, .items [] :: frames) := by
  obtain ⟨token, more, shape, other⟩ := tokens_head doc
  have same : read (.firstItem, frames) token = read (.value, .items [] :: frames) token := if_neg other
  rw [shape, List.cons_append, foldlM_cons, foldlM_cons, same]

mutual

/-- The reader goes over a whole document at once. -/
theorem foldlM_tokens : ∀ (doc : Doc)
    (frames : List Frame), doc.tokens.foldlM read (.value, frames) = some (.after doc, frames)
  | .word _, _ => rfl
  | .string _, _ => rfl
  | .array items, frames => foldlM_itemTokens items frames
  | .object members, frames => foldlM_memberTokens members frames

theorem foldlM_itemTokens : ∀ (items : List Doc) (frames : List Frame),
    (Doc.itemTokens items).foldlM read (.firstItem, frames) = some (.after (.array items), frames)
  | [], _ => rfl
  | doc :: rest, frames => by
      rw [Doc.itemTokens, foldlM_firstItem, foldlM_append, foldlM_tokens doc]
      exact foldlM_moreItems rest frames [] doc

theorem foldlM_moreItems : ∀ (rest : List Doc) (frames : List Frame) (done : List Doc) (doc : Doc),
    (Doc.moreItems rest).foldlM read (.after doc, .items done :: frames) =
      some (.after (.array (done ++ doc :: rest)), frames)
  | [], _, _, _ => rfl
  | next :: rest, frames, done, doc => by
      have comma : read (.after doc, .items done :: frames) (.punct ',') =
        some (.value, .items (done ++ [doc]) :: frames) := rfl
      rw [Doc.moreItems, foldlM_cons, comma]
      show (next.tokens ++ Doc.moreItems rest).foldlM read (.value, .items (done ++ [doc]) :: frames) = _
      rw [foldlM_append, foldlM_tokens next, Option.bind_some, foldlM_moreItems rest, List.append_assoc,
        List.singleton_append]

theorem foldlM_memberTokens : ∀ (members : List (List Char × Doc)) (frames : List Frame),
    (Doc.memberTokens members).foldlM read (.firstKey, frames) = some (.after (.object members), frames)
  | [], _ => rfl
  | (key, doc) :: rest, frames => by
      show (doc.tokens ++ Doc.moreMembers rest).foldlM read (.value, .members [] key :: frames) = _
      rw [foldlM_append, foldlM_tokens doc]
      exact foldlM_moreMembers rest frames [] key doc

theorem foldlM_moreMembers : ∀ (rest : List (List Char × Doc)) (frames : List Frame) (done : List (List Char × Doc))
    (key : List Char) (doc : Doc), (Doc.moreMembers rest).foldlM read (.after doc, .members done key :: frames) =
      some (.after (.object (done ++ (key, doc) :: rest)), frames)
  | [], _, _, _, _ => rfl
  | (next, value) :: rest, frames, done, key, doc => by
      show (value.tokens ++ Doc.moreMembers rest).foldlM read
        (.value, .members (done ++ [(key, doc)]) next :: frames) = _
      rw [foldlM_append, foldlM_tokens value, Option.bind_some, foldlM_moreMembers rest, List.append_assoc,
        List.singleton_append]

end

/-- The tokens of a document are read as that document. -/
theorem parse_tokens (doc : Doc) : parse doc.tokens = some doc := by
  rw [parse, foldlM_tokens]
  rfl

end Completeness

section Soundness

def openItems (done : List Doc) : List Token := done.flatMap fun doc => doc.tokens ++ [.punct ',']

def openMembers (done : List (List Char × Doc)) : List Token :=
  done.flatMap fun (key, doc) => .string key :: .punct ':' :: (doc.tokens ++ [.punct ','])

def Frame.tokens : Frame → List Token
  | .items done => .punct '[' :: openItems done
  | .members done key => .punct '{' :: (openMembers done ++ [.string key, .punct ':'])

def Phase.tokens : Phase → List Token
  | .value => []
  | .firstItem => [.punct '[']
  | .firstKey => [.punct '{']
  | .key done => .punct '{' :: openMembers done
  | .colon done name => .punct '{' :: (openMembers done ++ [.string name])
  | .after doc => doc.tokens

/-- The tokens that lead to a state of the reader. -/
def spelled (state : State) : List Token := state.2.reverse.flatMap Frame.tokens ++ state.1.tokens

theorem tokens_array (done : List Doc) (doc : Doc) :
    (Doc.array (done ++ [doc])).tokens = .punct '[' :: (openItems done ++ doc.tokens ++ [.punct ']']) := by
  have more : ∀ (done : List Doc),
    Doc.moreItems (done ++ [doc]) = .punct ',' :: (openItems done ++ doc.tokens ++ [.punct ']']) := by
    intro done
    induction done with
    | nil => simp [Doc.moreItems, openItems]
    | cons first done ih => simp [Doc.moreItems, ih, openItems]
  rcases done with _ | ⟨first, done⟩
  · simp [Doc.tokens, Doc.itemTokens, Doc.moreItems, openItems]
  · simp [Doc.tokens, Doc.itemTokens, more, openItems]

/-- The tokens of an object, by its last member. -/
theorem tokens_object (done : List (List Char × Doc)) (key : List Char) (doc : Doc) :
    (Doc.object (done ++ [(key, doc)])).tokens =
      .punct '{' :: (openMembers done ++ .string key :: .punct ':' :: doc.tokens ++ [.punct '}']) := by
  have more : ∀ (done : List (List Char × Doc)), Doc.moreMembers (done ++ [(key, doc)]) =
      .punct ',' :: (openMembers done ++ .string key :: .punct ':' :: doc.tokens ++ [.punct '}']) := by
    intro done
    induction done with
    | nil => simp [Doc.moreMembers, openMembers]
    | cons first done ih => simp [Doc.moreMembers, ih, openMembers]
  rcases done with _ | ⟨first, done⟩
  · simp [Doc.tokens, Doc.memberTokens, Doc.moreMembers, openMembers]
  · simp [Doc.tokens, Doc.memberTokens, more, openMembers]

theorem spelled_open_ {frames : List Frame} {token : Token} {next : State} (stepped : open_ frames token = some next) :
    spelled next = frames.reverse.flatMap Frame.tokens ++ [token] := by
  rcases token with c | body | letters
  · simp only [open_] at stepped
    split_ifs at stepped with bracket brace <;> cases stepped <;> simp [spelled, Phase.tokens, *]
  · cases stepped
    rfl
  · cases stepped
    rfl

/-- A step of the reader spells one token more. -/
theorem spelled_read {state next : State} {token : Token} (stepped : read state token = some next) :
    spelled next = spelled state ++ [token] := by
  obtain ⟨phase, frames⟩ := state
  cases phase with
  | value => simpa [spelled, Phase.tokens] using spelled_open_ stepped
  | firstItem =>
    simp only [read] at stepped
    split_ifs at stepped with closing
    · cases stepped
      simp [spelled, Phase.tokens, closing, Doc.tokens, Doc.itemTokens]
    · simpa [spelled, Phase.tokens, Frame.tokens, openItems] using spelled_open_ stepped
  | firstKey =>
    rcases token with c | body | letters
    · simp only [read] at stepped
      split_ifs at stepped with closing
      cases stepped
      simp [spelled, Phase.tokens, closing, Doc.tokens, Doc.memberTokens]
    · cases stepped
      simp [spelled, Phase.tokens, openMembers]
    · simp [read] at stepped
  | key done =>
    rcases token with c | body | letters
    · simp [read] at stepped
    · cases stepped
      simp [spelled, Phase.tokens]
    · simp [read] at stepped
  | colon done key =>
    simp only [read] at stepped
    split_ifs at stepped with colon
    cases stepped
    simp [spelled, Phase.tokens, Frame.tokens, colon]
  | after doc =>
    rcases frames with _ | ⟨done | ⟨done, key⟩, frames⟩
    · simp [read] at stepped
    · simp only [read] at stepped
      split_ifs at stepped with comma closing
      · cases stepped
        simp [spelled, Phase.tokens, Frame.tokens, openItems, comma]
      · cases stepped
        simp [spelled, Phase.tokens, Frame.tokens, tokens_array, closing]
    · simp only [read] at stepped
      split_ifs at stepped with comma closing
      · cases stepped
        simp [spelled, Phase.tokens, Frame.tokens, openMembers, comma]
      · cases stepped
        simp [spelled, Phase.tokens, Frame.tokens, tokens_object, closing]

theorem spelled_foldlM {state next : State} {tokens : List Token} (ran : tokens.foldlM read state = some next) :
    spelled next = spelled state ++ tokens := by
  induction tokens generalizing state with
  | nil =>
    cases ran
    simp
  | cons token rest ih =>
    rw [foldlM_cons] at ran
    obtain ⟨middle, stepped, ran⟩ := Option.bind_eq_some_iff.mp ran
    rw [ih ran, spelled_read stepped, List.append_assoc, List.singleton_append]

/-- Tokens are read as a document exactly when they are its tokens. -/
theorem parse_eq_some_iff {tokens : List Token} {doc : Doc} : parse tokens = some doc ↔ tokens = doc.tokens := by
  constructor
  · intro parsed
    obtain ⟨⟨phase, frames⟩, ran, finish⟩ := Option.bind_eq_some_iff.mp parsed
    cases phase <;> rcases frames with _ | ⟨frame, frames⟩ <;>
      simp only [finished, reduceCtorEq, Option.some.injEq] at finish
    subst finish
    simpa [spelled, Phase.tokens] using (spelled_foldlM ran).symm
  · rintro rfl
    exact parse_tokens doc

end Soundness

section Neighbours

variable {state next last : State} {token second : Token} {rest tokens : List Token} {doc : Doc}

/-- Two tokens that may stand side by side: words do not touch, and a comma is not followed by a closing bracket. -/
structure Meets (token second : Token) : Prop where
  words : ∀ first last, token = .word first → second ≠ .word last
  commas : token = .punct ',' → second ≠ .punct ']' ∧ second ≠ .punct '}'

theorem read_word {letters : List Char} (stepped : read state (.word letters) = some next) :
    ∃ frames, next = (.after (.word letters), frames) := by
  obtain ⟨phase, frames⟩ := state
  cases phase <;> rcases frames with _ | ⟨_ | _, frames⟩ <;> simp_all [read, open_, eq_comm]

theorem read_comma (stepped : read state (.punct ',') = some next) :
    ∃ frames, next = (.value, frames) ∨ ∃ done, next = (.key done, frames) := by
  obtain ⟨phase, frames⟩ := state
  cases phase <;> rcases frames with _ | ⟨_ | _, frames⟩ <;> simp_all [read, open_, eq_comm]

theorem meets_of_read (stepped : read state token = some next) (again : read next second = some last) :
    Meets token second := by
  constructor
  · rintro first other rfl rfl
    obtain ⟨frames, rfl⟩ := read_word stepped
    rcases frames with _ | ⟨_ | _, frames⟩ <;> simp [read] at again
  · rintro rfl
    obtain ⟨frames, rfl | ⟨done, rfl⟩⟩ := read_comma stepped <;> constructor <;> rintro rfl <;>
      simp [read, open_] at again

theorem isChain_of_foldlM (ran : tokens.foldlM read state = some last) : tokens.IsChain Meets := by
  induction tokens generalizing state with
  | nil => exact .nil
  | cons token rest ih =>
    rw [foldlM_cons] at ran
    obtain ⟨next, stepped, ran⟩ := Option.bind_eq_some_iff.mp ran
    rcases rest with _ | ⟨second, rest⟩
    · exact .singleton token
    · obtain ⟨after, again, -⟩ := Option.bind_eq_some_iff.mp (foldlM_cons .. ▸ ran)
      exact .cons_cons (meets_of_read stepped again) (ih ran)

theorem isChain_tokens (doc : Doc) : doc.tokens.IsChain Meets := isChain_of_foldlM (foldlM_tokens doc [])

theorem dropTrailing_of_isChain (chain : tokens.IsChain Meets) : dropTrailing tokens = tokens := by
  induction tokens with
  | nil => rfl
  | cons token rest ih =>
    have kept : ¬ (token = .punct ',' ∧ (rest.head? = some (.punct '}') ∨ rest.head? = some (.punct ']'))) := by
      rintro ⟨comma, closing⟩
      rcases rest with _ | ⟨second, rest⟩
      · simp at closing
      · have meets := ((List.isChain_cons_cons.mp chain).1).commas comma
        rcases closing with closing | closing
        · exact meets.2 (Option.some.inj closing)
        · exact meets.1 (Option.some.inj closing)
    rw [dropTrailing, if_neg kept, ih chain.tail]

/-- A document has no trailing commas. -/
@[simp] theorem dropTrailing_tokens (doc : Doc) : dropTrailing doc.tokens = doc.tokens :=
  dropTrailing_of_isChain (isChain_tokens doc)

/-- Two words do not touch. -/
def WordsApart (token second : Token) : Prop := ∀ first last, token = .word first → second ≠ .word last

theorem wordsApart_of_dropTrailing (chain : (dropTrailing tokens).IsChain WordsApart) : tokens.IsChain WordsApart := by
  induction tokens with
  | nil => exact .nil
  | cons token rest ih =>
    rw [dropTrailing] at chain
    have after : rest.IsChain WordsApart := by
      split at chain
      · exact ih chain
      · exact ih chain.tail
    refine List.isChain_cons.mpr ⟨fun second found => ?_, after⟩
    obtain ⟨more, rfl⟩ : ∃ more, rest = second :: more := by
      rcases rest with _ | ⟨head, more⟩ <;> simp_all
    rintro first last rfl rfl
    rw [if_neg fun dropped => by simp at dropped, dropTrailing, if_neg fun dropped => by simp at dropped] at chain
    exact (List.isChain_cons_cons.mp chain).1 first last rfl rfl

/-- The words of a document stay apart when trailing commas come back. -/
theorem words_apart (spelled : dropTrailing tokens = doc.tokens) : tokens.IsChain WordsApart :=
  wordsApart_of_dropTrailing (spelled ▸ (isChain_tokens doc).imp fun _ _ => Meets.words)

end Neighbours

end JsonTokens
