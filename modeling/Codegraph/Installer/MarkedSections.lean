import Codegraph.Installer.ConfigFiles
import Codegraph.Library.Matches

/- This file models the section between two markers that the installer keeps in a file of the user. -/

namespace Codegraph.Installer
open Codegraph.Watch.Scope (Text)
open Matches List

def sectionStart : Text := "<!-- CODEGRAPH_START -->".toList

def sectionEnd : Text := "<!-- CODEGRAPH_END -->".toList

/-- The instructions for agents, from the one marker to the other. -/
def instructionsBlock : Text :=
  "<!-- CODEGRAPH_START -->
## CodeGraph

When a repository contains a `.codegraph/` directory,
  use CodeGraph before grep/find or reading source files when you need to understand or locate code.

Before the first query in a repository, verify that the index is usable:

- **MCP:** `codegraph_status`
- **Shell:** `codegraph status . --json`

Do not infer index readiness from the directory alone. Follow the recovery guidance reported by
  `status`; do not initialize or rebuild an index unless the user requests it or `status` explicitly requires it.

Shell project-path syntax differs by command family:

- Lifecycle commands accept an optional positional path: `codegraph status . --json`, `codegraph init .`,
  `codegraph sync .`, `codegraph index .`.
- Research commands take exactly one positional query/target and use `-p/--path` for the project: `codegraph explore
  \"<question>\" -p .`, `codegraph search \"<symbol>\" -p .`, `codegraph node \"<symbol-name-or-id>\" -p .`.

Do not append the project as a second positional argument to a research command. If the shell rejects an argument,
  run `codegraph <command> --help` and correct the syntax before falling back to grep/find.

For code research:

- Start with `codegraph_explore` for an area, feature, or call flow.
- Use `codegraph_search` to locate a known symbol.
- Use `codegraph_node` for a symbol's source and caller/callee trail, or for a line-numbered whole file.
- If MCP tools are unavailable, use `codegraph explore`, `codegraph search`, and `codegraph node`.

If there is no `.codegraph/` directory, do not create one unless the user asks.
<!-- CODEGRAPH_END -->".toList

/-- The first start marker and the first end marker, when they stand in this order. -/
def markedRange (content startMarker endMarker : Text) : Option (Nat × Nat) :=
  match find startMarker content, find endMarker content with
  | some startIdx, some endIdx => if startIdx < endIdx then some (startIdx, endIdx + endMarker.length) else none
  | _, _ => none

def slice (content : Text) (start stop : Nat) : Text := (content.take stop).drop start

def replaceOrAppendMarkedSection (file : FileState) (body startMarker endMarker : Text) : FileState × FileAction :=
  match readToString file with
  | none => (atomicWriteFile (body ++ ['\n']), .created)
  | some content =>
    match markedRange content startMarker endMarker with
    | some (startIdx, blockEnd) =>
      if slice content startIdx blockEnd = body then (file, .unchanged)
      else (atomicWriteFile (content.take startIdx ++ body ++ content.drop blockEnd), .updated)
    | none =>
      let trimmed := trimEnd content
      let sep := if trimmed = [] then [] else "\n\n".toList
      (atomicWriteFile (trimmed ++ sep ++ body ++ ['\n']), .updated)

/-- What the upsert of the instructions would do, without writing. -/
def instructionsEntryAction (file : FileState) : FileAction :=
  match readToString file with
  | none => .created
  | some content =>
    match markedRange content sectionStart sectionEnd with
    | some (startIdx, blockEnd) =>
      if slice content startIdx blockEnd = instructionsBlock then .unchanged else .updated
    | none => .updated

def upsertInstructionsEntry (file : FileState) : FileState × FileAction :=
  replaceOrAppendMarkedSection file instructionsBlock sectionStart sectionEnd

/-- The section goes, and the file with it when nothing else is left. -/
def removeMarkedSection (file : FileState) (startMarker endMarker : Text) : FileState × FileAction :=
  match readToString file with
  | none => (file, .kept)
  | some content =>
    match markedRange content startMarker endMarker with
    | none => (file, .notFound)
    | some (startIdx, blockEnd) =>
      let before := trimEnd (content.take startIdx)
      let after := trimStart (content.drop blockEnd)
      let joinSep := if before ≠ [] ∧ after ≠ [] then "\n\n".toList else []
      let joined := before ++ joinSep ++ after
      if trim joined = [] then (none, .removed) else (atomicWriteFile (trim joined ++ ['\n']), .removed)

section Markers

/-- A marker begins with a character that it has nowhere else, and it ends in no white space. -/
structure Marker where
  head : Char
  middle : Text
  last : Char
  sharp : head ∉ middle ++ [last]
  solid : Scanning.isWhitespace last = false

def Marker.text (marker : Marker) : Text := marker.head :: (marker.middle ++ [marker.last])

/-- A block from a start marker to an end marker that stands nowhere before its end. -/
structure Fence where
  start : Marker
  stop : Marker
  inner : Text
  alike : stop.head = start.head
  alone : ¬ stop.text <:+: start.text ++ inner

def Fence.text (fence : Fence) : Text := fence.start.text ++ fence.inner ++ fence.stop.text

variable {marker : Marker} {fence : Fence} {text front back white : Text} {startIdx blockEnd endIdx : Nat}

/-- White space behind a text neither adds nor takes a marker. -/
theorem Marker.infix_append_white (marker : Marker) (blank : ∀ c ∈ white, Scanning.isWhitespace c = true) :
    marker.text <:+: text ++ white ↔ marker.text <:+: text := by
  have free : marker.last ∉ white.reverse := by
    rw [mem_reverse]
    intro member
    exact absurd (blank _ member) (by rw [marker.solid]; decide)
  have shape : marker.text.reverse = marker.last :: (marker.head :: marker.middle).reverse := by simp [Marker.text]
  rw [← reverse_infix, reverse_append, shape, SeparatedText.enclosed_skip free, ← shape, reverse_infix]

/-- What the upsert puts a new block behind. -/
def appendFront (content : Text) : Text := trimEnd content ++ if trimEnd content = [] then [] else "\n\n".toList

theorem Marker.infix_appendFront (marker : Marker) (content : Text) :
    marker.text <:+: appendFront content ↔ marker.text <:+: content := by
  obtain ⟨white, blank, shape⟩ := trimEnd_append content
  have gap : ∀ c ∈ (if trimEnd content = [] then [] else "\n\n".toList : Text), Scanning.isWhitespace c = true := by
    apply all_eq_true.mp
    split <;> decide
  rw [appendFront, marker.infix_append_white gap, ← marker.infix_append_white blank, ← shape]

theorem Marker.find_start (marker : Marker) (absent : ¬ marker.text <:+: front) (back : Text) :
    find marker.text (front ++ (marker.text ++ back)) = some front.length := by
  have here : find marker.text (marker.text ++ back) = some 0 := find_of_prefix (prefix_append _ _)
  rw [Marker.text, cons_append] at here ⊢
  rw [find_append_right marker.sharp absent, here]
  rfl

theorem Fence.find_start (fence : Fence) (absent : ¬ fence.start.text <:+: front) (back : Text) :
    find fence.start.text (front ++ fence.text ++ back) = some front.length := by
  have shape : front ++ fence.text ++ back = front ++
    (fence.start.text ++ (fence.inner ++ fence.stop.text ++ back)) := by
    simp [Fence.text]
  rw [shape, fence.start.find_start absent]

/-- The end marker of a block is the first one when none stands before the block. -/
theorem Fence.find_stop (fence : Fence) (absent : ¬ fence.stop.text <:+: front) (back : Text) :
    find fence.stop.text (front ++ fence.text ++ back) =
      some (front.length + (fence.start.text ++ fence.inner).length) := by
  have within : find fence.stop.text (fence.text ++ back) = some (fence.start.text ++ fence.inner).length := by
    rw [Fence.text, append_assoc]
    exact fence.stop.find_start fence.alone back
  obtain ⟨rest, begins⟩ : ∃ rest, fence.text ++ back = fence.stop.head :: rest :=
    ⟨_, by rw [fence.alike, Fence.text, Marker.text, cons_append, cons_append, cons_append]⟩
  rw [begins] at within
  rw [append_assoc, begins]
  rw [Marker.text] at within ⊢
  have skipped : find (fence.stop.head :: (fence.stop.middle ++ [fence.stop.last]))
    (front ++ fence.stop.head :: rest) = _ :=
    find_append_right fence.stop.sharp absent
  rw [skipped, within, Option.map_some]

theorem Fence.markedRange_eq (fence : Fence) (noStart : ¬ fence.start.text <:+: front)
    (noStop : ¬ fence.stop.text <:+: front)
    (back : Text) : markedRange (front ++ fence.text ++ back) fence.start.text fence.stop.text =
      some (front.length, front.length + fence.text.length) := by
  have positive : 0 < (fence.start.text ++ fence.inner).length := by simp [Marker.text]
  rw [markedRange, fence.find_start noStart, fence.find_stop noStop]
  simp only [Nat.lt_add_right_iff_pos, positive, if_true]
  have whole : fence.text.length = (fence.start.text ++ fence.inner).length + fence.stop.text.length :=
    length_append
  rw [whole, Nat.add_assoc]

theorem slice_middle (front middle back : Text) :
    slice (front ++ middle ++ back) front.length (front.length + middle.length) = middle := by
  rw [slice, append_assoc, take_length_add_append, take_left, drop_left]

theorem slice_split (text : Text) (ordered : startIdx ≤ blockEnd) :
    text.take startIdx ++ slice text startIdx blockEnd ++ text.drop blockEnd = text := by
  have front : text.take startIdx = (text.take blockEnd).take startIdx := by
    rw [take_take, Nat.min_eq_left ordered]
  rw [front, slice, take_append_drop, take_append_drop]

end Markers

section Sections

variable (fence : Fence)

def Fence.upsert (file : FileState) : FileState × FileAction :=
  replaceOrAppendMarkedSection file fence.text fence.start.text fence.stop.text

def Fence.remove (file : FileState) : FileState × FileAction :=
  removeMarkedSection file fence.start.text fence.stop.text

def Fence.range (content : Text) : Option (Nat × Nat) := markedRange content fence.start.text fence.stop.text

/-- A text has one of the markers, or both. -/
def Fence.Marks (content : Text) : Prop := fence.start.text <:+: content ∨ fence.stop.text <:+: content

theorem Fence.marks_nil : ¬ fence.Marks [] := by simp [Marks, Marker.text]

variable {fence} {front back content : Text} {startIdx blockEnd : Nat}

/-- A block that no marker stands before is found again. -/
theorem Fence.upsert_settled (clear : ¬ fence.Marks front) (back : Text) :
    fence.upsert (atomicWriteFile (front ++ fence.text ++ back)) =
      (atomicWriteFile (front ++ fence.text ++ back), .unchanged) := by
  rw [Marks, not_or] at clear
  rw [upsert, replaceOrAppendMarkedSection, readToString_write]
  dsimp only
  rw [fence.markedRange_eq clear.1 clear.2 back]
  dsimp only
  rw [slice_middle, if_pos rfl]

/-- A range starts at the first start marker and ends with the first end marker. -/
theorem Fence.range_eq_some (found : fence.range content = some (startIdx, blockEnd)) :
    find fence.start.text content = some startIdx ∧ ∃ endIdx, find fence.stop.text content = some endIdx ∧
      startIdx < endIdx ∧
      blockEnd = endIdx + fence.stop.text.length := by
  rw [range, markedRange] at found
  split at found
  · rename_i first last started stopped
    split at found
    · rename_i ordered
      cases found
      exact ⟨started, last, stopped, ordered, rfl⟩
    · cases found
  · cases found

theorem Fence.marks_of_range (found : fence.range content = some (startIdx, blockEnd)) : fence.Marks content := by
  obtain ⟨started, -⟩ := Fence.range_eq_some found
  by_contra clear
  rw [Marks, not_or] at clear
  rw [find_eq_none_iff.mpr clear.1] at started
  cases started

/-- No marker stands before a range. -/
theorem Fence.clear_before (found : fence.range content = some (startIdx, blockEnd)) :
    ¬ fence.Marks (content.take startIdx) := by
  obtain ⟨started, endIdx, stopped, ordered, -⟩ := Fence.range_eq_some found
  exact not_or.mpr
    ⟨find_take (by simp [Marker.text]) started le_rfl, find_take (by simp [Marker.text]) stopped ordered.le⟩

theorem Fence.marks_appendFront (fence : Fence) (content : Text) :
    fence.Marks (appendFront content) ↔ fence.Marks content := by
  rw [Marks, Marks, fence.start.infix_appendFront, fence.stop.infix_appendFront]

/-- What the upsert writes and answers. -/
theorem Fence.upsert_write (fence : Fence) (content : Text) : fence.upsert (atomicWriteFile content) =
    match fence.range content with
    | some (startIdx, blockEnd) =>
      if slice content startIdx blockEnd = fence.text then (atomicWriteFile content, .unchanged)
      else (atomicWriteFile (content.take startIdx ++ fence.text ++ content.drop blockEnd), .updated)
    | none => (atomicWriteFile (appendFront content ++ fence.text ++ ['\n']), .updated) := by
  rw [upsert, replaceOrAppendMarkedSection, readToString_write]
  rfl

theorem Fence.range_none_of_le {endIdx : Nat} (started : find fence.start.text content = some startIdx)
    (stopped : find fence.stop.text content = some endIdx) (reversed : endIdx ≤ startIdx) :
    fence.range content = none := by
  rw [range, markedRange, started, stopped]
  exact if_neg (Nat.not_lt.mpr reversed)

/-- A stray marker before the block is taken for the block's own, and the next upsert writes again. -/
theorem Fence.upsert_stray (stray : fence.Marks front) (unpaired : fence.range front = none) (back : Text) :
    (fence.upsert (atomicWriteFile (front ++ fence.text ++ back))).2 = .updated := by
  rw [upsert_write]
  cases started : find fence.start.text front with
  | some startIdx =>
    have first : find fence.start.text (front ++ fence.text ++ back) = some startIdx := by
      rw [append_assoc]
      exact find_append_left started
    cases stopped : find fence.stop.text front with
    | some endIdx =>
      have last : find fence.stop.text (front ++ fence.text ++ back) = some endIdx := by
        rw [append_assoc]
        exact find_append_left stopped
      have reversed : endIdx ≤ startIdx := by
        rw [range, markedRange, started, stopped] at unpaired
        simpa using unpaired
      rw [range_none_of_le first last reversed]
    | none =>
      -- The range runs from the stray start marker to the end of the block, so it is longer than the block.
      have last := fence.find_stop (find_eq_none_iff.mp stopped) back
      have room := fits_of_find started
      have positive : 0 < fence.start.text.length := by simp [Marker.text]
      have whole : fence.text.length = (fence.start.text ++ fence.inner).length + fence.stop.text.length :=
        length_append
      have found : fence.range (front ++ fence.text ++ back) =
        some (startIdx, front.length + fence.text.length) := by
        rw [range, markedRange, first, last]
        simp only
        rw [if_pos (by omega), whole, Nat.add_assoc]
      have longer : slice (front ++ fence.text ++ back) startIdx
        (front.length + fence.text.length) ≠ fence.text := by
        intro same
        have sizes := congrArg length same
        rw [slice, ← length_append, take_left, length_drop, length_append] at sizes
        omega
      rw [found]
      dsimp only
      rw [if_neg longer]
  | none =>
    have absent := find_eq_none_iff.mp started
    have first := fence.find_start absent back
    have inside : fence.stop.text <:+: front := stray.resolve_left absent
    cases stopped : find fence.stop.text front with
    | none => exact absurd inside (find_eq_none_iff.mp stopped)
    | some endIdx =>
      have last : find fence.stop.text (front ++ fence.text ++ back) = some endIdx := by
        rw [append_assoc]
        exact find_append_left stopped
      have room := fits_of_find stopped
      rw [range_none_of_le first last (by omega)]

/-- The white space behind a text has no part in where its markers stand. -/
theorem Marker.find_appendFront (marker : Marker) (content : Text) :
    find marker.text (appendFront content) = find marker.text content := by
  obtain ⟨white, blank, shape⟩ := trimEnd_append content
  cases found : find marker.text (trimEnd content) with
  | some offset =>
    rw [appendFront, find_append_left found]
    conv_rhs => rw [shape, find_append_left found]
  | none =>
    have absent : ¬ marker.text <:+: content := by
      rw [shape, marker.infix_append_white blank]
      exact find_eq_none_iff.mp found
    rw [find_eq_none_iff.mpr absent, find_eq_none_iff, marker.infix_appendFront]
    exact absent

theorem Fence.range_appendFront (fence : Fence) (content : Text) :
    fence.range (appendFront content) = fence.range content := by
  rw [range, range, markedRange, markedRange, fence.start.find_appendFront, fence.stop.find_appendFront]

/-- What is taken away with the block is only white space. -/
theorem Fence.remove_appended (fence : Fence) (clear : ¬ fence.Marks content) :
    trim ((readToString (fence.remove (atomicWriteFile (appendFront content ++ fence.text ++ ['\n']))).1).getD []) =
      trim content := by
  have kept : ¬ fence.Marks (appendFront content) := mt (fence.marks_appendFront content).mp clear
  rw [Marks, not_or] at kept
  have before : trimEnd ((appendFront content ++ fence.text ++ ['\n']).take (appendFront content).length) =
    trimEnd content := by
    rw [append_assoc, take_left, appendFront]
    split <;> rw [trimEnd_white (all_eq_true.mp (by decide)), trimEnd_trimEnd]
  have after : trimStart
    ((appendFront content ++ fence.text ++ ['\n']).drop ((appendFront content).length + fence.text.length)) = [] := by
    rw [← length_append, drop_left]
    rfl
  rw [remove, removeMarkedSection, readToString_write]
  dsimp only
  rw [fence.markedRange_eq kept.1 kept.2]
  dsimp only
  have alone : (if trimEnd content ≠ [] ∧ ([] : Text) ≠ [] then "\n\n".toList else []) = [] :=
    if_neg fun both => both.2 rfl
  rw [before, after, alone, append_nil, append_nil, trim_trimEnd]
  split
  · rename_i empty
    rw [empty]
    rfl
  · rw [readToString_write, Option.getD_some, trim_white (all_eq_true.mp (by decide)), trim_trim]

end Sections

section Instructions

/-- The bytes of a file hold one of the markers, or both. -/
def HasMarker (content : List UInt8) : Prop := Utf8.bytes sectionStart <:+: content ∨ Utf8.bytes sectionEnd <:+: content

/-- The block is in the file after an upsert, a second upsert leaves the file alone, and where no marker was, a
removal gives the text back. -/
structure Settles (content : List UInt8) : Prop where
  occurs : ∃ text, readToString (upsertInstructionsEntry (some content)).1 = some text ∧ instructionsBlock <:+: text
  again : upsertInstructionsEntry (upsertInstructionsEntry (some content)).1 =
    ((upsertInstructionsEntry (some content)).1, .unchanged)
  restores : ¬ HasMarker content → ∃ text, readToString (some content) = some text ∧
    trim ((readToString
      (removeMarkedSection (upsertInstructionsEntry (some content)).1 sectionStart sectionEnd).1).getD []) = trim text

/-- A text has no marker, or its first start marker stands before its first end marker. Bytes that are no text have a
marker. -/
def Markable (content : List UInt8) : Prop :=
  match readToString (some content) with
  | some text => ¬ HasMarker content ∨ (markedRange text sectionStart sectionEnd).isSome
  | none => HasMarker content

def startMarker : Marker where
  head := '<'
  middle := "!-- CODEGRAPH_START --".toList
  last := '>'
  sharp := by decide
  solid := by decide

def endMarker : Marker where
  head := '<'
  middle := "!-- CODEGRAPH_END --".toList
  last := '>'
  sharp := by decide
  solid := by decide

set_option maxRecDepth 20000 in
/-- The block of the instructions has its markers at its ends only. -/
def instructionsFence : Fence where
  start := startMarker
  stop := endMarker
  inner := (instructionsBlock.drop sectionStart.length).take
    (instructionsBlock.length - sectionStart.length - sectionEnd.length)
  alike := rfl
  alone := by
    have spelled : instructionsBlock = _ := String.toList_ofList
    have shape : Matches.find endMarker.text (startMarker.text ++
        (instructionsBlock.drop sectionStart.length).take
          (instructionsBlock.length - sectionStart.length - sectionEnd.length)) = none := by
      rw [spelled]
      decide +kernel
    exact find_eq_none_iff.mp shape

set_option maxRecDepth 20000 in
theorem instructionsFence_text : instructionsFence.text = instructionsBlock := by
  have spelled : instructionsBlock = _ := String.toList_ofList
  rw [Fence.text, instructionsFence]
  dsimp only
  rw [spelled]
  decide +kernel

variable {content : List UInt8} {text : Text}

/-- The preview names the action that the upsert takes. -/
theorem instructionsEntryAction_eq (file : FileState) :
    instructionsEntryAction file = (upsertInstructionsEntry file).2 := by
  rw [instructionsEntryAction, upsertInstructionsEntry, replaceOrAppendMarkedSection]
  cases readToString file with
  | none => rfl
  | some content =>
    dsimp only
    cases markedRange content sectionStart sectionEnd with
    | none => rfl
    | some pair =>
      dsimp only
      split <;> rfl

theorem upsertInstructionsEntry_eq (file : FileState) :
    upsertInstructionsEntry file = instructionsFence.upsert file := by
  rw [upsertInstructionsEntry, Fence.upsert, instructionsFence_text]
  rfl

theorem hasMarker_iff (text : Text) : HasMarker (Utf8.bytes text) ↔ instructionsFence.Marks text := by
  rw [HasMarker, Utf8.bytes_infix_iff (Utf8.ascii_of_all (by decide)),
    Utf8.bytes_infix_iff (Utf8.ascii_of_all (by decide))]
  rfl

/-- The block behind a text without markers settles. -/
theorem again_of_clear {front : Text} (clear : ¬ instructionsFence.Marks front) (back : Text)
    (written : (upsertInstructionsEntry (some content)).1 = atomicWriteFile (front ++ instructionsBlock ++ back)) :
    upsertInstructionsEntry (upsertInstructionsEntry (some content)).1 =
      ((upsertInstructionsEntry (some content)).1, .unchanged) := by
  rw [written, upsertInstructionsEntry_eq, ← instructionsFence_text]
  exact Fence.upsert_settled clear back

theorem occurs_of_written {front back : Text}
    (written : (upsertInstructionsEntry (some content)).1 = atomicWriteFile (front ++ instructionsBlock ++ back)) :
    ∃ text, readToString (upsertInstructionsEntry (some content)).1 = some text ∧ instructionsBlock <:+: text := by
  rw [written, readToString_write]
  exact ⟨_, rfl, front, back, rfl⟩

/-- A file of bytes that are no text is replaced by the block. -/
theorem settles_bytes (unread : readToString (some content) = none) : Settles content ↔ HasMarker content := by
  have written : (upsertInstructionsEntry (some content)).1 = atomicWriteFile ([] ++ instructionsBlock ++ ['\n']) := by
    rw [upsertInstructionsEntry, replaceOrAppendMarkedSection, unread, nil_append]
  have clear := instructionsFence.marks_nil
  constructor
  · intro settles
    by_contra unmarked
    obtain ⟨text, read, -⟩ := settles.restores unmarked
    rw [unread] at read
    cases read
  · exact fun marked =>
      ⟨occurs_of_written written, again_of_clear clear _ written, fun unmarked => absurd marked unmarked⟩

/-- A text is settled where the markers do not occur in it or frame a section. -/
theorem settles_text (text : Text) :
    Settles (Utf8.bytes text) ↔ ¬ instructionsFence.Marks text ∨ (instructionsFence.range text).isSome := by
  have write : (upsertInstructionsEntry (some (Utf8.bytes text))) = _ :=
    (upsertInstructionsEntry_eq _).trans (instructionsFence.upsert_write text)
  rw [instructionsFence_text] at write
  cases range : instructionsFence.range text with
  | some pair =>
    obtain ⟨startIdx, blockEnd⟩ := pair
    have marks : HasMarker (Utf8.bytes text) := (hasMarker_iff text).mpr (Fence.marks_of_range range)
    have clear := Fence.clear_before range
    refine iff_of_true ?_ (.inr rfl)
    rw [range] at write
    by_cases same : slice text startIdx blockEnd = instructionsBlock
    · have kept : (upsertInstructionsEntry (some (Utf8.bytes text))).1 =
          atomicWriteFile (text.take startIdx ++ instructionsBlock ++ text.drop blockEnd) := by
        obtain ⟨-, endIdx, -, ordered, rfl⟩ := Fence.range_eq_some range
        rw [← same, slice_split text (by omega)]
        exact congrArg Prod.fst (write.trans (if_pos same))
      exact ⟨occurs_of_written kept, again_of_clear clear _ kept, fun unmarked => absurd marks unmarked⟩
    · have written := congrArg Prod.fst (write.trans (if_neg same))
      exact ⟨occurs_of_written written, again_of_clear clear _ written, fun unmarked => absurd marks unmarked⟩
  | none =>
    rw [range] at write
    have written := congrArg Prod.fst write
    have clear := instructionsFence.marks_appendFront text
    by_cases marked : instructionsFence.Marks text
    · refine iff_of_false (fun settles => ?_) (by simp [marked])
      have stray := Fence.upsert_stray (clear.mpr marked)
        ((instructionsFence.range_appendFront text).trans range) ['\n']
      have again := congrArg Prod.snd settles.again
      rw [written, upsertInstructionsEntry_eq, ← instructionsFence_text, stray] at again
      cases again
    · refine iff_of_true ?_ (.inl marked)
      have removed := instructionsFence.remove_appended marked
      refine ⟨occurs_of_written written, again_of_clear (mt clear.mp marked) _ written,
        fun _ => ⟨text, Utf8.decode_bytes text, ?_⟩⟩
      rw [written, ← instructionsFence_text]
      exact removed

end Instructions

end Codegraph.Installer
