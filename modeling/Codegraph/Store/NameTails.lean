import Codegraph.Core.Types
import Codegraph.Query.FileClass

/- This file cuts the names that parked references wait under, and those that an added file can be imported by. -/

namespace Codegraph.Store
open Codegraph.Core List
open Codegraph.Query (rsplitOnce)
open Codegraph.Watch.Scope (Text)

/-- The name without an arity of at most three digits. -/
def stripErlangArity (name : Text) : Text :=
  match rsplitOnce name '/' with
  | some (base, arity) =>
    if base ≠ [] ∧ 1 ≤ arity.length ∧ arity.length ≤ 3 ∧ arity.all Char.isDigit then base else name
  | none => name

/-- The text behind the first byte, if a character ends there. -/
def behindFirstByte : Text → Option Text
  | [] => none
  | first :: rest => if first.utf8Size = 1 then some rest else none

/-- A name up to its first dot behind the first byte. -/
def fileNameStem (name : Text) : Text :=
  match (behindFirstByte name).filter fun rest => '.' ∈ rest with
  | some rest => name.take (rest.idxOf '.' + 1)
  | none => name

/-- What a symbol's plain name could match. An import, or a reference written as a path, waits under the stem of a
file. -/
def referenceNameTailOf (referenceName : Text) (referenceKind : EdgeKind) : Text :=
  let pathReference :=
    referenceKind = .references ∧ '/' ∈ referenceName ∧ stripErlangArity referenceName = referenceName
  let stem :=
    if referenceKind = .imports ∨ pathReference then
      ((rsplitOnce referenceName.trimEndSlashes '/').map fun (_, name) => fileNameStem name).filter fun stem =>
        !stem.all (· = '.')
    else none
  stem.getD ((stripErlangArity referenceName).rtakeWhile fun c => c ≠ '.' && c ≠ ':')

/-- The names of a file and of its folder. -/
def lastNames (filePath : Text) : List Text := filePath.segments.drop (filePath.segments.length - 2)

/-- What an import of a file can be written as. -/
def importPathKeys (filePath : Text) : List Text :=
  (((lastNames filePath).flatMap fun name => [name, fileNameStem name]).filter (· ≠ [])).eraseDups

section ImportKeys

/-- A name up to its first dot behind the first character. -/
def stemOf : Text → Text
  | [] => []
  | first :: rest => first :: rest.takeWhile (· ≠ '.')

variable {filePath front name written : Text} {first : Char} {rest : Text}

theorem take_idxOf (rest : Text) : rest.take (rest.idxOf '.') = rest.takeWhile (· ≠ '.') := by
  induction rest with
  | nil => rfl
  | cons c rest ih =>
    by_cases dot : c = '.'
    · subst dot
      rw [idxOf_cons_self, takeWhile_cons_of_neg (by decide)]
      rfl
    · rw [idxOf_cons_ne _ dot, take_succ_cons, takeWhile_cons_of_pos (by simpa using dot), ih]

/-- Behind a first character of one byte the stem is what it should be. -/
theorem fileNameStem_narrow (narrow : first.utf8Size = 1) (rest : Text) :
    fileNameStem (first :: rest) = stemOf (first :: rest) := by
  rw [fileNameStem, behindFirstByte, if_pos narrow, stemOf]
  by_cases dotted : '.' ∈ rest
  · rw [Option.filter_some_pos (by simpa using dotted)]
    simp only [take_succ_cons, take_idxOf]
  · rw [Option.filter_some_neg (by simpa using dotted)]
    have free : ∀ c ∈ rest, decide (c ≠ '.') = true := fun c member => decide_eq_true fun dot => dotted (dot ▸ member)
    rw [takeWhile_eq_self_iff.mpr free]

/-- A name that starts with a character of several bytes is never cut. -/
theorem fileNameStem_wide (wide : first.utf8Size ≠ 1) (rest : Text) : fileNameStem (first :: rest) = first :: rest := by
  rw [fileNameStem, behindFirstByte, if_neg wide]
  rfl

theorem fileNameStem_head (name : Text) : (fileNameStem name).head? = name.head? := by
  cases name with
  | nil => rfl
  | cons first rest =>
    by_cases narrow : first.utf8Size = 1
    · rw [fileNameStem_narrow narrow]
      rfl
    · rw [fileNameStem_wide narrow]

theorem stemOf_stemOf (name : Text) : stemOf (stemOf name) = stemOf name := by
  cases name with
  | nil => rfl
  | cons first rest => simp only [stemOf, takeWhile_takeWhile, and_self, Bool.decide_eq_true]

/-- The last segment of a path that is written with slashes behind it. -/
theorem lastSegment (free : '/' ∉ written) (some_ : written ≠ []) (slashes : Nat) :
    rsplitOnce (.trimEndSlashes (front ++ '/' :: (written ++ List.replicate slashes '/'))) '/' =
      some (front, written) := by
  have trimmed : .trimEndSlashes (front ++ '/' :: (written ++ replicate slashes '/')) = front ++ '/' ::
    written := by
    rw [Text.trimEndSlashes, ← cons_append, ← append_assoc, rdropWhile, reverse_append,
      dropWhile_append_of_pos fun c member => ?_, ← rdropWhile, rdropWhile_eq_self_iff]
    · intro filled
      rw [getLast_append_of_right_ne_nil _ _ (cons_ne_nil _ _), getLast_cons some_]
      intro slash
      exact free (of_decide_eq_true slash ▸ getLast_mem some_)
    · exact decide_eq_true (eq_of_mem_replicate (mem_reverse.mp member))
  have named : ∀ c ∈ written, decide (c ≠ '/') = true :=
    fun c member => decide_eq_true fun slash => free (slash ▸ member)
  have back : (front ++ '/' :: written).rtakeWhile (· ≠ '/') = written := by
    rw [rtakeWhile, reverse_append, reverse_cons, append_assoc,
      takeWhile_append_of_pos fun c member =>
      named c (mem_reverse.mp member)]
    simp
  have ahead : (front ++ '/' :: written).rdropWhile (· ≠ '/') = front ++ ['/'] := by
    rw [rdropWhile, reverse_append, reverse_cons, append_assoc,
      dropWhile_append_of_pos fun c member =>
      named c (mem_reverse.mp member)]
    simp
  rw [trimmed, rsplitOnce, if_pos (mem_append_right _ (mem_cons_self ..)), back, ahead, dropLast_concat]

theorem slash_notMem_of_lastNames (member : name ∈ lastNames filePath) : '/' ∉ name :=
  (SeparatedText.mem_splitOn (mem_of_mem_drop member)).1

theorem mem_importPathKeys {key : Text} :
    key ∈ importPathKeys filePath ↔ key ≠ [] ∧ ∃ name ∈ lastNames filePath, key = name ∨ key = fileNameStem name := by
  rw [importPathKeys, mem_eraseDups, mem_filter, mem_flatMap, decide_eq_true_eq, and_comm]
  simp only [mem_cons, not_mem_nil, or_false]

/-- An import written as a path waits under the stem of its last segment. -/
theorem referenceNameTailOf_path (free : '/' ∉ written) (some_ : written ≠ [])
    (solid : ¬(fileNameStem written).all (· = '.')) (slashes : Nat) :
    referenceNameTailOf (front ++ '/' :: (written ++ List.replicate slashes '/')) .imports = fileNameStem written := by
  simp only [referenceNameTailOf, true_or, if_true, lastSegment free some_, Option.map_some]
  rw [Option.filter_some_pos (by simpa using solid), Option.getD_some]

/-- What an added file can be imported as is looked up for every import that names it by its path, exactly where its
name starts with a character of one byte or the import names a segment of the path whole. -/
theorem import_tail_is_key (filePath front name written : Text) (slashes : Nat) (last : name ∈ lastNames filePath)
    (some_ : name ≠ []) (spelled : written = name ∨ written = stemOf name) (solid : ¬(stemOf name).all (· = '.')) :
    referenceNameTailOf (front ++ '/' :: (written ++ List.replicate slashes '/')) .imports ∈ importPathKeys filePath ↔
      (∃ first ∈ name.head?, first.utf8Size = 1) ∨ written ∈ lastNames filePath := by
  have free := slash_notMem_of_lastNames last
  obtain ⟨first, rest, rfl⟩ := exists_cons_of_ne_nil some_
  have begins : ∃ tail, written = first :: tail ∧ '/' ∉ written := by
    rcases spelled with rfl | rfl
    · exact ⟨rest, rfl, free⟩
    · refine ⟨_, rfl, fun member => free ?_⟩
      exact (mem_cons.mp member).elim (fun same => same ▸ mem_cons_self ..)
        fun inside => mem_cons_of_mem _ (( takeWhile_prefix _).subset inside)
  obtain ⟨tail, begins, unslashed⟩ := begins
  have nonempty : written ≠ [] := begins ▸ cons_ne_nil _ _
  by_cases narrow : first.utf8Size = 1
  · have stem : fileNameStem written = stemOf (first :: rest) := by
      rw [begins, fileNameStem_narrow narrow, ← begins]
      rcases spelled with rfl | rfl
      · rfl
      · exact stemOf_stemOf _
    refine iff_of_true ?_ (.inl ⟨first, rfl, narrow⟩)
    rw [referenceNameTailOf_path unslashed nonempty (stem ▸ solid), stem, mem_importPathKeys]
    exact ⟨cons_ne_nil _ _, _, last, .inr (fileNameStem_narrow narrow rest).symm⟩
  · have stem : fileNameStem written = written := begins ▸ fileNameStem_wide narrow tail
    have wide : ¬∃ c ∈ (first :: rest).head?, c.utf8Size = 1 := by
      rintro ⟨c, same, small⟩
      exact narrow (Option.some.inj same ▸ small)
    have other : first ≠ '.' := fun dot => narrow (dot ▸ rfl)
    have undotted : ¬(fileNameStem written).all (· = '.') := by
      rw [stem, begins, all_cons, Bool.and_eq_true, decide_eq_true_eq]
      exact fun both => other both.1
    rw [referenceNameTailOf_path unslashed nonempty undotted, stem, or_iff_right wide, mem_importPathKeys]
    constructor
    · rintro ⟨-, key, member, rfl | cut⟩
      · exact member
      · have head := fileNameStem_head key
        rw [← cut, begins] at head
        obtain ⟨behind, rfl⟩ := head?_eq_some_iff.mp head.symm
        rw [cut, fileNameStem_wide narrow]
        exact member
    · exact fun member => ⟨nonempty, written, member, .inl rfl⟩

/-- A folder of one letter. -/
theorem import_tail_is_key_folder :
    referenceNameTailOf "./a//".toList .imports ∈ importPathKeys "src/a/mod.rs".toList :=
  (import_tail_is_key "src/a/mod.rs".toList ".".toList "a".toList "a".toList 2 (by decide) (by decide) (.inl rfl)
    (by decide)).mpr
    (.inl ⟨'a', rfl, rfl⟩)

/-- The stem of a name that starts with an accented letter is no key. -/
theorem accented_stem_is_no_key :
    ¬∀ (filePath front name written : Text) (slashes : Nat), name ∈ lastNames filePath → name ≠ [] →
      (written = name ∨ written = stemOf name) → ¬(stemOf name).all (· = '.') →
        referenceNameTailOf (front ++ '/' :: (written ++ List.replicate slashes '/')) .imports ∈
          importPathKeys filePath := by
  intro complete
  have found := complete "src/été.ts".toList ".".toList "été.ts".toList "été".toList 0 (by decide) (by decide)
    (.inr (by decide))
    (by decide)
  revert found
  decide

end ImportKeys

end Codegraph.Store
