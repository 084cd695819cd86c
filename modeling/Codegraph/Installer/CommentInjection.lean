import Codegraph.Library.JsonInsertions
import Codegraph.Library.Matches
import Codegraph.Installer.ConfigFiles

/- This file models how the installer puts a commented alternative behind its entry of a configuration file. -/

namespace Codegraph.Installer
open Codegraph.Watch.Scope (Text)
open JsonTokens Matches List

section Lines

/-- A line that a line break ends may have a carriage return in front of it. -/
def stripReturn (line : Text) : Text := if line.getLast? = some '\r' then line.dropLast else line

/-- The lines of a text, without their ends. A text that ends with a line break has no empty line behind it. -/
def strLines (text : Text) : List Text :=
  let parts := text.splitOn '\n'
  parts.dropLast.map stripReturn ++ parts.getLast?.toList.filter fun last => !last.isEmpty

theorem single_of_mem_strLines {text line : Text} (member : line ∈ strLines text) : '\n' ∉ line := by
  rw [strLines, mem_append] at member
  rcases member with member | member
  · obtain ⟨part, inside, rfl⟩ := mem_map.mp member
    have free := (SeparatedText.mem_splitOn (dropLast_subset _ inside)).1
    rw [stripReturn]
    split
    · exact fun broken => free (dropLast_subset _ broken)
    · exact free
  · have inside := (mem_filter.mp member).1
    exact (SeparatedText.mem_splitOn (mem_of_getLast? (Option.mem_toList.mp inside))).1

end Lines

/-- The end of the object behind some characters that opened it. Braces inside of strings do not count. -/
def balancedFrom : Nat → Quoting → Text → Option Nat
  | _, _, [] => none
  | depth, .escaped, _ :: rest => (balancedFrom depth .inside rest).map (· + 1)
  | depth, .inside, c :: rest =>
    (balancedFrom depth (if c = '\\' then .escaped else if c = '"' then .outside else .inside) rest).map (· + 1)
  | depth, .outside, c :: rest =>
    if c = '"' then (balancedFrom depth .inside rest).map (· + 1)
    else if c = '{' then (balancedFrom (depth + 1) .outside rest).map (· + 1)
    else if c = '}' then
      if depth - 1 = 0 then some 1 else (balancedFrom (depth - 1) .outside rest).map (· + 1)
    else (balancedFrom depth .outside rest).map (· + 1)

def balancedObjectEnd (text : Text) (opened : Nat) : Option Nat :=
  (balancedFrom 0 .outside (text.drop opened)).map (opened + ·)

/-- Where the key of the entry stands, and where its object ends. Places count characters, and all that is looked for
is found at their boundaries. -/
structure EntryPlace where
  entry : Nat
  stop : Nat
  deriving DecidableEq

def quoted (key : Text) : Text := '"' :: (key ++ ['"'])

/-- The parent's key is searched first, then the entry's key behind the next brace, then the brace of its value. -/
def findEntry (text parentKey entryKey : Text) : Option EntryPlace := do
  let anchor ← find (quoted parentKey) text
  let braceRel ← find ['{'] (text.drop anchor)
  let objOpen := anchor + braceRel
  let cgRel ← find (quoted entryKey) (text.drop objOpen)
  let cgAt := objOpen + cgRel
  let valOpenRel ← find ['{'] (text.drop cgAt)
  let end_ ← balancedObjectEnd text (cgAt + valOpenRel)
  return ⟨cgAt, if text[end_]? = some ',' then end_ + 1 else end_⟩

/-- The spaces and tabs that the entry's line starts with. -/
def entryIndent (text : Text) (cgAt : Nat) : Text :=
  ((text.take cgAt).rtakeWhile (· ≠ '\n')).takeWhile fun c => c = ' ' || c = '\t'

/-- The lines of the block behind a line break, each with the indentation of the entry. -/
def commentedLines (text commentBlock : Text) (place : EntryPlace) : Text :=
  '\n' :: ['\n'].intercalate ((strLines commentBlock).map (entryIndent text place.entry ++ ·))

def withComment (text commentBlock : Text) (place : EntryPlace) : Text :=
  text.take place.stop ++ commentedLines text commentBlock place ++ text.drop place.stop

/-- Whether something was written, and the file then. -/
def injectCommentedAlternative (file : FileState) (parentKey entryKey sentinel commentBlock : Text) :
    Bool × FileState :=
  match readToString file with
  | none => (false, file)
  | some text =>
    if sentinel <:+: text then (false, file)
    else match findEntry text parentKey entryKey with
      | none => (false, file)
      | some place => (true, atomicWriteFile (withComment text commentBlock place))

section Places

variable {text parentKey entryKey : Text} {place : EntryPlace}

/-- The end of an object lies right behind a closing brace. -/
theorem balancedFrom_ends {depth count : Nat} {quoting : Quoting}
    (found : balancedFrom depth quoting text = some count) : ∃ front, text.take count = front ++ ['}'] := by
  induction text generalizing depth quoting count with
  | nil => cases quoting <;> cases found
  | cons c rest ih =>
    have later : ∀ {depth quoting}, (balancedFrom depth quoting rest).map (· + 1) = some count →
      ∃ front, (c :: rest).take count = front ++ ['}'] := by
      intro depth quoting found
      obtain ⟨more, behind, rfl⟩ := Option.map_eq_some_iff.mp found
      obtain ⟨front, shape⟩ := ih behind
      exact ⟨c :: front, by rw [List.take_succ_cons, shape]; rfl⟩
    cases quoting with
    | escaped => exact later found
    | inside => exact later found
    | outside =>
      rw [balancedFrom] at found
      split_ifs at found with quote opening closing last
      · exact later found
      · exact later found
      · cases found
        exact ⟨[], by rw [closing]; rfl⟩
      · exact later found
      · exact later found

/-- The entry ends behind its closing brace, or behind the comma that follows the brace. -/
theorem findEntry_ends (found : findEntry text parentKey entryKey = some place) :
    ∃ front last, text.take place.stop = front ++ [last] ∧ (last = '}' ∨ last = ',') := by
  simp only [findEntry, Option.bind_eq_bind, Option.bind_eq_some_iff, Option.pure_def, Option.some.injEq] at found
  obtain ⟨anchor, -, braceRel, -, cgRel, -, valOpenRel, -, stop, balanced, rfl⟩ := found
  obtain ⟨count, inside, rfl⟩ := Option.map_eq_some_iff.mp balanced
  obtain ⟨front, shape⟩ := balancedFrom_ends inside
  dsimp only
  split
  · rename_i comma
    exact ⟨_, ',', by rw [List.take_add_one, comma]; rfl, .inr rfl⟩
  · exact ⟨_ ++ front, '}', by rw [List.take_add, shape, List.append_assoc], .inl rfl⟩

/-- What stands behind the end of an object does not move it. -/
theorem balancedFrom_append {depth count : Nat} {quoting : Quoting} (rest : Text)
    (found : balancedFrom depth quoting text = some count) :
    balancedFrom depth quoting (text ++ rest) = some count := by
  induction text generalizing depth quoting count with
  | nil => cases quoting <;> cases found
  | cons c text ih =>
    have later : ∀ {depth quoting}, (balancedFrom depth quoting text).map (· + 1) = some count →
        (balancedFrom depth quoting (text ++ rest)).map (· + 1) = some count := by
      intro depth quoting found
      obtain ⟨more, behind, rfl⟩ := Option.map_eq_some_iff.mp found
      rw [ih behind, Option.map_some]
    cases quoting with
    | escaped => exact later found
    | inside => exact later found
    | outside =>
      rw [cons_append]
      rw [balancedFrom] at found ⊢
      split_ifs at found ⊢
      · exact later found
      · exact later found
      · exact found
      · exact later found
      · exact later found

/-- An entry that is found in the front of a text is found in the text. -/
theorem findEntry_append (rest : Text) (found : findEntry text parentKey entryKey = some place) :
    findEntry (text ++ rest) parentKey entryKey ≠ none := by
  simp only [findEntry, Option.bind_eq_bind, Option.bind_eq_some_iff, Option.pure_def, Option.some.injEq] at found
  obtain ⟨anchor, parent, braceRel, opening, cgRel, entry, valOpenRel, opening', stop, balanced, -⟩ := found
  obtain ⟨count, inside, rfl⟩ := Option.map_eq_some_iff.mp balanced
  have within {skipped : Nat} (given : text.drop skipped ≠ []) : skipped ≤ text.length := by
    by_contra outside
    exact given (drop_eq_nil_of_le (by omega))
  have behind {skipped offset : Nat} {pattern : Text} (given : pattern ≠ [])
      (here : find pattern (text.drop skipped) = some offset) :
      find pattern ((text ++ rest).drop skipped) = some offset := by
    rw [drop_append_of_le_length (within fun empty => ?_)]
    · exact find_append_left here
    · rw [empty, find_nil, if_neg given] at here
      cases here
  have ends : balancedFrom 0 .outside ((text ++ rest).drop (anchor + braceRel + cgRel + valOpenRel)) = some count := by
    rw [drop_append_of_le_length (within fun empty => ?_)]
    · exact balancedFrom_append rest inside
    · rw [empty] at inside
      cases inside
  have key : quoted entryKey ≠ [] := cons_ne_nil _ _
  simp [findEntry, find_append_left parent, behind (by simp) opening, behind key entry, behind (by simp) opening',
    balancedObjectEnd, ends]

end Places

section Modes

variable {text : Text} {c : Char} {before tokens : List Token} {mode next : Mode}

/-- What may be open behind a closing brace or a comma. -/
theorem mode_of_step (ends : c = '}' ∨ c = ',') (stepped : step true mode c = some (tokens, next)) :
    next = .between ∨ (∃ body, next = .string body) ∨ next = .line ∨ next = .block := by
  rcases ends with rfl | rfl <;> cases mode <;>
    simp [step, start, isSpace, isPunct, isLetter, Char.isAlphanum] at stepped <;> simp_all [eq_comm]

theorem mode_of_run {front : Text} (ends : c = '}' ∨ c = ',')
    (ran : run true mode (front ++ [c]) = some (tokens, next)) :
    next = .between ∨ (∃ body, next = .string body) ∨ next = .line ∨ next = .block := by
  obtain ⟨middle, completed, stepped⟩ := step_of_run ran
  exact mode_of_step ends stepped

/-- Texts that go on alike have one document. -/
theorem commentedDoc_congr {front first second : Text} (ran : run true .between front = some (before, mode))
    (alike : lexFrom true mode first = lexFrom true mode second) :
    commentedDoc (front ++ first) = commentedDoc (front ++ second) := by
  rw [commentedDoc, commentedDoc, lexCommented, lexCommented, lexFrom_of_run ran, lexFrom_of_run ran, alike]

end Modes

section Blocks

variable {text commentBlock : Text} {place : EntryPlace}

/-- Every line of the block is a comment. -/
def CommentBlock (commentBlock : Text) : Prop := ∀ line ∈ strLines commentBlock, ['/', '/'] <+: line

theorem entryIndent_spaces {cgAt : Nat} : ∀ c ∈ entryIndent text cgAt, isSpace c = true ∧ c ≠ '\n' := by
  intro c member
  have blank := mem_takeWhile_imp member
  simp only [Bool.or_eq_true, decide_eq_true_eq] at blank
  rcases blank with rfl | rfl <;> decide

theorem commentLine_indented (comments : CommentBlock commentBlock) {cgAt : Nat} {line : Text}
    (member : line ∈ (strLines commentBlock).map (entryIndent text cgAt ++ ·)) : CommentLine line := by
  obtain ⟨inner, inside, rfl⟩ := mem_map.mp member
  obtain ⟨words, shape⟩ := comments inner inside
  refine ⟨?_, entryIndent text cgAt, words, by rw [← shape]; rfl, fun c member => (entryIndent_spaces c member).1⟩
  rw [mem_append, not_or]
  exact ⟨fun broken => (entryIndent_spaces '\n' broken).2 rfl, single_of_mem_strLines inside⟩

theorem intercalate_eq_broken (line : Text) (lines : List Text) :
    '\n' :: ['\n'].intercalate (line :: lines) = broken (line :: lines) := by
  induction lines generalizing line with
  | nil => simp [broken, intercalate]
  | cons next lines ih =>
    rw [intercalate_cons_cons, broken, flatMap_cons, ← broken, ← ih next]
    simp

/-- The lines end in a comment that is open up to the end of the line behind them. -/
theorem run_commentedLines (comments : CommentBlock commentBlock) (given : strLines commentBlock ≠ []) {mode : Mode}
    (ends : mode = .between ∨ mode = .line) :
    run true mode (commentedLines text commentBlock place) = some ([], .line) := by
  rcases lines : (strLines commentBlock).map (entryIndent text place.entry ++ ·) with _ | ⟨line, rest⟩
  · exact absurd (map_eq_nil_iff.mp lines) given
  · rw [commentedLines, lines, intercalate_eq_broken]
    exact run_broken (fun other member => commentLine_indented comments (lines ▸ member)) (by simp) ends

theorem commentedLines_nil (none_ : strLines commentBlock = []) : commentedLines text commentBlock place = ['\n'] := by
  rw [commentedLines, none_]
  rfl

end Blocks

section Injection

variable {Number : Type} (reader : Reader Number) (text parentKey entryKey sentinel commentBlock : Text)
  (value : Value Number)

/-- What the text goes on with behind the line of a place. -/
def behindLine (rest : Text) : Text := rest.dropWhile (· ≠ '\n')

/-- The text and its comments have the value at the place where the lines are put: nothing is open there and the rest
of the line may be cut off, or a line comment is open, or a block comment that the lines do not close. -/
def Seamless (place : EntryPlace) : Prop :=
  match run true .between (text.take place.stop) with
  | some (_, .between) =>
    strLines commentBlock = [] ∨ Denotes reader (text.take place.stop ++ behindLine (text.drop place.stop)) value
  | some (_, .line) =>
    strLines commentBlock ≠ [] ∨ Denotes reader (text.take place.stop ++ '\n' :: text.drop place.stop) value
  | some (_, .block) => ¬ ['*', '/'] <:+: commentedLines text commentBlock place ++ (text.drop place.stop).take 1
  | _ => False

/-- The lines would close a block comment of the text. -/
def ClosesComment (place : EntryPlace) : Prop :=
  (∃ before, run true .between (text.take place.stop) = some (before, .block)) ∧
    ['*', '/'] <:+: commentedLines text commentBlock place ++ (text.drop place.stop).take 1

/-- The sentinel is in the lines that are put in, or it lies across one of their seams. -/
def SentinelPut (place : EntryPlace) : Prop :=
  sentinel <:+: commentedLines text commentBlock place ∨
    (∃ front back, sentinel = front ++ back ∧ front <:+ commentedLines text commentBlock place ∧
      back <+: text.drop place.stop) ∨
    ∃ front back, sentinel = front ++ back ∧ front <:+ text.take place.stop ∧
      back <+: commentedLines text commentBlock place ++ text.drop place.stop

/-- A second call finds the sentinel. Where the keys reach over the place, it may instead not find the entry again. -/
def Settled (place : EntryPlace) : Prop :=
  SentinelPut text sentinel commentBlock place ∨
    findEntry (text.take place.stop) parentKey entryKey = none ∧
      findEntry (withComment text commentBlock place) parentKey entryKey = none

/-- Wherever the lines are put, they are put seamlessly and once. -/
def Injectable : Prop := ∀ place, ¬ sentinel <:+: text → findEntry text parentKey entryKey = some place →
  Seamless reader text commentBlock value place ∧ Settled text parentKey entryKey sentinel commentBlock place

/-- The file then holds a text of the same value, and a second call writes nothing. -/
def KeepsConfig : Prop := ∃ out, (injectCommentedAlternative
    (atomicWriteFile text) parentKey entryKey sentinel commentBlock).2 = atomicWriteFile out ∧
  Denotes reader out value ∧ injectCommentedAlternative
    (atomicWriteFile out) parentKey entryKey sentinel commentBlock = (false, atomicWriteFile out)

variable {reader text parentKey entryKey sentinel commentBlock value} {place : EntryPlace}

theorem inject_write (text : Text) :
    injectCommentedAlternative (atomicWriteFile text) parentKey entryKey sentinel commentBlock =
    if sentinel <:+: text then (false, atomicWriteFile text)
    else match findEntry text parentKey entryKey with
      | none => (false, atomicWriteFile text)
      | some place => (true, atomicWriteFile (withComment text commentBlock place)) := by
  rw [injectCommentedAlternative, readToString_write]

theorem settled_iff (out : Text) :
    injectCommentedAlternative (atomicWriteFile out) parentKey entryKey sentinel commentBlock =
    (false, atomicWriteFile out) ↔ sentinel <:+: out ∨ findEntry out parentKey entryKey = none := by
  rw [inject_write]
  split
  · rename_i present
    simp [present]
  · rename_i absent
    cases findEntry out parentKey entryKey <;> simp [absent]

/-- A second call writes nothing exactly when the first one settled the file. -/
theorem settled_withComment (absent : ¬ sentinel <:+: text) (place : EntryPlace) :
    injectCommentedAlternative (atomicWriteFile (withComment text commentBlock place)) parentKey entryKey sentinel
        commentBlock = (false, atomicWriteFile (withComment text commentBlock place)) ↔
      Settled text parentKey entryKey sentinel commentBlock place := by
  have front : ¬ sentinel <:+: text.take place.stop := fun inside => absent (inside.trans ( take_prefix ..).isInfix)
  have back : ¬ sentinel <:+: text.drop place.stop := fun inside => absent (inside.trans (drop_suffix ..).isInfix)
  have missed : findEntry (withComment text commentBlock place) parentKey entryKey = none →
      findEntry (text.take place.stop) parentKey entryKey = none := by
    intro none_
    cases found : findEntry (text.take place.stop) parentKey entryKey with
    | none => rfl
    | some place' =>
      rw [withComment, append_assoc] at none_
      exact absurd none_ (findEntry_append _ found)
  rw [settled_iff, Settled, SentinelPut, and_iff_right_of_imp missed, withComment, append_assoc,
    infix_append_iff, infix_append_iff]
  simp only [front, back, false_or, or_assoc]

theorem denotes_congr {front first second : Text} {before : List Token} {mode : Mode}
    (ran : run true .between front = some (before, mode)) (alike : lexFrom true mode first = lexFrom true mode second) :
    Denotes reader (front ++ first) value ↔ Denotes reader (front ++ second) value := by
  rw [Denotes, Denotes, commentedDoc_congr ran alike]

/-- What is written has the value exactly when the place is seamless, or possibly when the lines close a comment. -/
theorem denotes_withComment (comments : CommentBlock commentBlock) (denotes : Denotes reader text value)
    (found : findEntry text parentKey entryKey = some place) :
    (Seamless reader text commentBlock value place → Denotes reader (withComment text commentBlock place) value) ∧
      (¬ ClosesComment text commentBlock place → Denotes reader (withComment text commentBlock place) value →
        Seamless reader text commentBlock value place) := by
  obtain ⟨front, last, shape, ends⟩ := findEntry_ends found
  obtain ⟨before, mode, ran⟩ : ∃ before mode, run true .between (text.take place.stop) = some (before, mode) := by
    obtain ⟨doc, spelled, -⟩ := denotes
    obtain ⟨tokens, read, -⟩ := Option.bind_eq_some_iff.mp spelled
    rw [lexCommented, ← take_append_drop place.stop text] at read
    exact run_of_lexFrom read
  have whole : Denotes reader (text.take place.stop ++ text.drop place.stop) value := by rwa [take_append_drop]
  rw [Seamless, ClosesComment, withComment, append_assoc, ran]
  rcases mode_of_run ends (shape ▸ ran) with rfl | ⟨body, rfl⟩ | rfl | rfl
  · -- Nothing is open, and the last line of the block swallows the rest of the line.
    by_cases given : strLines commentBlock = []
    · rw [commentedLines_nil given]
      refine ⟨fun _ => (denotes_congr ran ?_).mpr whole, fun _ _ => .inl given⟩
      exact lexFrom_silent (show step true .between '\n' = some ([], .between) by decide)
    · have alike : lexFrom true .between (commentedLines text commentBlock place ++ text.drop place.stop) =
          lexFrom true .between (behindLine (text.drop place.stop)) := by
        rw [lexFrom_of_silent_run (run_commentedLines comments given (.inl rfl)), lexFrom_line]
        rfl
      exact ⟨fun seamless => (denotes_congr ran alike).mpr (seamless.resolve_left given),
        fun _ written => .inr ((denotes_congr ran alike).mp written)⟩
  · exact ⟨False.elim, fun _ written => not_denotes_of_broken ran written⟩
  · -- A line comment is open, and what was in it stays in one.
    by_cases given : strLines commentBlock = []
    · rw [commentedLines_nil given]
      exact ⟨fun seamless => seamless.resolve_left (by simp [given]), fun _ written => .inr written⟩
    · refine ⟨fun _ => (denotes_congr ran ?_).mpr whole, fun _ _ => .inl given⟩
      exact lexFrom_of_silent_run (run_commentedLines comments given (.inr rfl))
  · refine ⟨fun open_ => (denotes_congr ran (lexFrom_block open_)).mpr whole,
      fun closes _ closing => closes ⟨⟨before, rfl⟩, closing⟩⟩

/-- A configuration is kept when the block can be injected, and only then unless its lines would close a comment. -/
theorem injection_keeps_config_iff (comments : CommentBlock commentBlock) (denotes : Denotes reader text value) :
    (Injectable reader text parentKey entryKey sentinel commentBlock value →
      KeepsConfig reader text parentKey entryKey sentinel commentBlock value) ∧
    ((∀ place, findEntry text parentKey entryKey = some place → ¬ ClosesComment text commentBlock place) →
      (KeepsConfig reader text parentKey entryKey sentinel commentBlock value ↔
        Injectable reader text parentKey entryKey sentinel commentBlock value)) := by
  have unwritten : injectCommentedAlternative (atomicWriteFile text) parentKey entryKey sentinel commentBlock =
    (false, atomicWriteFile text) →
      KeepsConfig reader text parentKey entryKey sentinel commentBlock value :=
    fun same => ⟨text, congrArg Prod.snd same, denotes, same⟩
  have kept : Injectable reader text parentKey entryKey sentinel commentBlock value →
      KeepsConfig reader text parentKey entryKey sentinel commentBlock value := by
    intro injectable
    by_cases present : sentinel <:+: text
    · exact unwritten ((settled_iff text).mpr (.inl present))
    · cases found : findEntry text parentKey entryKey with
      | none => exact unwritten ((settled_iff text).mpr (.inr found))
      | some place =>
        obtain ⟨seamless, settled⟩ := injectable place present found
        refine ⟨withComment text commentBlock place, ?_, (denotes_withComment comments denotes found).1 seamless,
          (settled_withComment present place).mpr settled⟩
        rw [inject_write, if_neg present, found]
  refine ⟨kept, fun open_ => ⟨fun keeps place present found => ?_, kept⟩⟩
  obtain ⟨out, written, same, again⟩ := keeps
  rw [inject_write, if_neg present, found] at written
  obtain rfl : withComment text commentBlock place = out := by
    have decoded := congrArg readToString written
    simpa only [readToString_write, Option.some.injEq] using decoded
  exact ⟨(denotes_withComment comments denotes found).2 (open_ place found) same,
    (settled_withComment present place).mp again⟩

end Injection

section Examples

def entryValue : Value Text := .object [(['p'], .object [(['e'], .object [])])]

def oneComment : Text := ['/', '/', 'x']

theorem oneComment_isBlock : CommentBlock oneComment := by
  intro line member
  have lines : strLines oneComment = [oneComment] := rfl
  rw [lines, mem_singleton] at member
  exact member ▸ ⟨['x'], rfl⟩

/-- The object of the entry ends its line. -/
def separateLines : Text := ['{', '"', 'p', '"', ':', '\n', '{', '"', 'e', '"', ':', '{', '}', '\n', '}', '}']

/-- The last line of the block ends at the line break behind the entry. -/
theorem separate_lines_keep_config : KeepsConfig wordReader separateLines ['p'] ['e']
    ['/', '/'] oneComment entryValue := by
  have denotes : Denotes wordReader separateLines entryValue :=
    ⟨.object [(['p'], .object [(['e'], .object [])])], rfl, rfl⟩
  refine (injection_keeps_config_iff oneComment_isBlock denotes).1 fun place absent found => ?_
  obtain rfl : ⟨7, 13⟩ = place :=
    Option.some.inj ((show findEntry separateLines ['p'] ['e'] = some ⟨7, 13⟩ by decide).symm.trans found)
  exact ⟨.inr denotes, .inl (.inl (by decide))⟩

/-- The whole object on one line. -/
def oneLine : Text := ['{', '"', 'p', '"', ':', '{', '"', 'e', '"', ':', '{', '}', '}', '}']

/-- The last line of the block swallows the closing braces. -/
theorem one_line_is_corrupted : Denotes wordReader oneLine entryValue ∧ CommentBlock oneComment ∧
    ¬ KeepsConfig wordReader oneLine ['p'] ['e'] ['/', '/'] oneComment entryValue := by
  have denotes : Denotes wordReader oneLine entryValue := ⟨.object [(['p'], .object [(['e'], .object [])])], rfl, rfl⟩
  refine ⟨denotes, oneComment_isBlock, fun keeps => ?_⟩
  have found : findEntry oneLine ['p'] ['e'] = some ⟨6, 12⟩ := by decide
  have ran : run true .between (oneLine.take 12) = some (_, .between) := rfl
  have open_ : ∀ place, findEntry oneLine ['p'] ['e'] = some place → ¬ ClosesComment oneLine oneComment place := by
    intro place other closes
    obtain rfl : ⟨6, 12⟩ = place := Option.some.inj (found.symm.trans other)
    obtain ⟨⟨before, block⟩, -⟩ := closes
    cases ran.symm.trans block
  have injectable := ((injection_keeps_config_iff oneComment_isBlock denotes).2 open_).mp keeps
  obtain ⟨seamless, -⟩ := injectable ⟨6, 12⟩ (by decide) found
  rcases seamless with none_ | ⟨doc, spelled, -⟩
  · cases none_
  · cases spelled

end Examples

end Codegraph.Installer
