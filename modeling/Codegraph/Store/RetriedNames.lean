import Codegraph.Library.InsertionMaps
import Codegraph.Store.NameTails
import Codegraph.Store.References

/- This file looks up the parked references that a sync retries by the names it touched. -/

namespace Codegraph.Store
open Codegraph.Core KeyedTables InsertionMaps List
open Codegraph.Query (rsplitOnce)
open Codegraph.Watch.Scope (Text)

/-- The rows of the unresolved references in the order of their keys. -/
structure RefTable where
  rows : List (Keyed RefColumns)
  ordered : rows.Pairwise fun row later => row.id < later.id

def RefColumns.name (columns : RefColumns) : Text := columns.referenceName.toList

/-- The letters of plain text in lower case, as `lower` folds them too. -/
def toAsciiLowercase (text : Text) : Text := text.map Char.toLower

def edgeKindOf (rawKind : String) : Except RowError EdgeKind :=
  if rawKind = "function_ref" then .ok .references else parseEdgeKind rawKind

/-- The rows as references. -/
def readRefs (json : CandidateText) (rows : List (Keyed RefColumns)) : Except RowError (List UnresolvedRef) :=
  rows.mapM (rowToUnresolvedRef json)

/-- The rows of some keys, each once, in the order of the keys. -/
def RefTable.rowsOf (table : RefTable) (ids : List Int) : List (Keyed RefColumns) :=
  table.rows.filter fun row => row.id ∈ ids

section Buckets

/-- The keys of the rows that share a tail. -/
def bucketed (entries : List (Text × Int)) : InsertionMap Text (List Int) :=
  entries.foldl (fun buckets (tail, id) => buckets.insert tail ((buckets.get tail).getD [] ++ [id])) .empty

/-- The keys in buckets that are not too full. -/
def withinCeiling (ceiling : Nat) (buckets : InsertionMap Text (List Int)) : List Int :=
  buckets.keys.flatMap fun tail => ((buckets.get tail).filter fun ids => ids.length ≤ ceiling).getD []

end Buckets

variable (json : CandidateText) (table : RefTable) (names : List Text)

/-- The tail of each row that a name in `names` could match behind a qualifier. -/
def tailEntries (rows : List (Keyed RefColumns)) : Except RowError (List (Text × Int)) := do
  let tails ← rows.mapM fun row => (edgeKindOf row.value.referenceKind).map fun kind =>
    (referenceNameTailOf row.value.name kind, row)
  return tails.filterMap fun (tail, row) => if tail ≠ row.value.name ∧ tail ∈ names then some (tail, row.id) else none

/-- The references written with a qualifier. -/
def isQualified (columns : RefColumns) : Bool := decide ('.' ∈ columns.name) || decide (':' ∈ columns.name)

def unresolvedRefsByNameTails (perKeyCeiling : Nat) : Except RowError (List UnresolvedRef) :=
  if names = [] then .ok []
  else do
    let entries ← tailEntries names (table.rows.filter fun row => isQualified row.value)
    readRefs json (table.rowsOf (withinCeiling perKeyCeiling (bucketed entries)))

def unresolvedRefsByFoldedNames (languages : List Language) : Except RowError (List UnresolvedRef) :=
  if languages = [] ∨ names = [] then .ok []
  else
    let found := (names.dedup.toChunks (sqliteParamChunkSize - languages.length)).flatMap fun chunk =>
      table.rows.filter fun row =>
        row.value.language ∈ languages.map Language.asStr ∧ toAsciiLowercase row.value.name ∈ chunk.map toAsciiLowercase
    readRefs json (table.rowsOf (found.map Keyed.id))

/-- A PHP call through a class that is written with a namespace. -/
def isQualifiedPhpCall (columns : RefColumns) : Bool :=
  columns.language = Language.php.asStr && columns.referenceKind = "calls" && decide ('\\' ∈ columns.name) &&
    decide ('.' ∈ columns.name)

def unresolvedPhpCallsThroughQualifiedClasses : Except RowError (List UnresolvedRef) :=
  readRefs json (table.rows.filter fun row => isQualifiedPhpCall row.value)

/-- The last segment of the class or the member is one of the names. -/
def throughNames (name : Text) : Bool :=
  (rsplitOnce name '.').any fun (className, member) => member ∈ names || className.rtakeWhile (· ≠ '\\') ∈ names

/-- A row that is found by its name in any case. -/
def inAnyCase (foldedLanguages : List Language) (columns : RefColumns) : Bool :=
  let isPhp := columns.language = Language.php.asStr
  let isFolded := columns.language ∈ foldedLanguages.map Language.asStr
  (isPhp || isFolded) &&
    (isPhp && toAsciiLowercase columns.name ∈ names.map (fun name => toAsciiLowercase ('\\' :: name)) ||
      isFolded && toAsciiLowercase columns.name ∈ names.map toAsciiLowercase)

def throughClass (columns : RefColumns) : Bool :=
  columns.language = Language.php.asStr && columns.referenceKind = "calls" && decide ('\\' ∈ columns.name) &&
    throughNames names columns.name

def unresolvedRefsRetriedByNames (tailCeiling : Nat) (foldedLanguages : List Language) :
    Except RowError (List UnresolvedRef) :=
  if names = [] then .ok []
  else do
    let languages := foldedLanguages.map Language.asStr ++ [Language.php.asStr]
    let rows := table.rows.filter fun row => isQualified row.value || row.value.language ∈ languages
    let entries ← tailEntries names (rows.filter fun row => isQualified row.value)
    let chosen := rows.filter fun row => inAnyCase names foldedLanguages row.value || throughClass names row.value
    readRefs json (table.rowsOf (chosen.map Keyed.id ++ withinCeiling tailCeiling (bucketed entries)))

section Union

variable {json table names} {rows chosen : List (Keyed RefColumns)} {refs : List UnresolvedRef}
  {row other : Keyed RefColumns} {reference : UnresolvedRef} {ids : List Int}

theorem RefTable.eq_of_id (first : row ∈ table.rows) (second : other ∈ table.rows) (same : row.id = other.id) :
    row = other := by
  have distinct : (table.rows.map Keyed.id).Nodup := pairwise_map.mpr (table.ordered.imp Int.ne_of_lt)
  exact inj_on_of_nodup_map distinct first second same

/-- The rows are read one by one. -/
theorem readRefs_iff : readRefs json rows = .ok refs ↔
    List.Forall₂ (fun row ref => rowToUnresolvedRef json row = .ok ref) rows refs := by
  induction rows generalizing refs with
  | nil =>
    rw [forall₂_nil_left_iff]
    exact ⟨fun read => (Except.ok.inj read).symm, fun empty => empty ▸ rfl⟩
  | cons row rows ih =>
    rw [forall₂_cons_left_iff, readRefs, mapM_cons]
    constructor
    · intro read
      cases first : rowToUnresolvedRef json row with
      | error error =>
        rw [first] at read
        cases read
      | ok found =>
        cases later : rows.mapM (rowToUnresolvedRef json) with
        | error error =>
          rw [first, later] at read
          cases read
        | ok others =>
          rw [first, later] at read
          exact ⟨found, others, rfl, ih.mp later, (Except.ok.inj read).symm⟩
    · rintro ⟨found, others, first, later, rfl⟩
      have rest : rows.mapM (rowToUnresolvedRef json) = .ok others := ih.mpr later
      rw [first, rest]
      rfl

theorem mem_of_readRefs (read : readRefs json rows = .ok refs) :
    reference ∈ refs ↔ ∃ row ∈ rows, rowToUnresolvedRef json row = .ok reference := by
  have pairs := readRefs_iff.mp read
  clear read
  induction pairs with
  | nil => simp
  | @cons row found rows refs first later ih =>
    have head : reference = found ↔ rowToUnresolvedRef json row = .ok reference := by
      rw [first, Except.ok.injEq, eq_comm]
    refine mem_cons.trans ((or_congr head ih).trans ?_)
    simp only [mem_cons, exists_eq_or_imp]

theorem readable_of_readRefs (read : readRefs json rows = .ok refs) (member : row ∈ rows) :
    ∃ reference, rowToUnresolvedRef json row = .ok reference := by
  have pairs := readRefs_iff.mp read
  clear read
  induction pairs with
  | nil => cases member
  | cons first later ih =>
    rcases mem_cons.mp member with rfl | member
    · exact ⟨_, first⟩
    · exact ih member

theorem readRefs_of_readable (readable : ∀ row ∈ rows, ∃ reference, rowToUnresolvedRef json row = .ok reference) :
    ∃ refs, readRefs json rows = .ok refs := by
  induction rows with
  | nil => exact ⟨[], rfl⟩
  | cons row rows ih =>
    obtain ⟨reference, first⟩ := readable row (mem_cons_self ..)
    obtain ⟨refs, later⟩ := ih fun other member => readable other (mem_cons_of_mem _ member)
    exact ⟨reference :: refs, readRefs_iff.mpr (.cons first (readRefs_iff.mp later))⟩

theorem ok_of_bind {α β : Type} {step : Except RowError α} {next : α → Except RowError β} {result : β}
    (ends : step >>= next = .ok result) : ∃ value, step = .ok value ∧ next value = .ok result := by
  cases step with
  | error error => cases ends
  | ok value => exact ⟨value, rfl, ends⟩

/-- A row that is read keeps its key and its name. -/
theorem columns_of_read (read : rowToUnresolvedRef json row = .ok reference) :
    reference.id = some row.id ∧ reference.referenceName = row.value.referenceName := by
  simp only [rowToUnresolvedRef] at read
  split at read
  all_goals
    obtain ⟨kind, -, read⟩ := ok_of_bind read
    obtain ⟨candidates, -, read⟩ := ok_of_bind read
    obtain ⟨language, -, read⟩ := ok_of_bind read
    obtain ⟨subkind, -, read⟩ := ok_of_bind read
    cases read
    exact ⟨rfl, rfl⟩

theorem mem_rowsOf : row ∈ table.rowsOf ids ↔ row ∈ table.rows ∧ row.id ∈ ids := by
  rw [RefTable.rowsOf, mem_filter, decide_eq_true_eq]

/-- The rows of the keys of some rows are these rows. -/
theorem mem_rowsOf_map (inside : rows ⊆ table.rows) : row ∈ table.rowsOf (rows.map Keyed.id) ↔ row ∈ rows := by
  rw [mem_rowsOf, mem_map]
  constructor
  · rintro ⟨member, other, found, same⟩
    rwa [RefTable.eq_of_id member (inside found) same.symm]
  · exact fun member => ⟨inside member, row, member, rfl⟩

/-- References are read in the order of their keys, each once. -/
theorem ordered_of_readRefs (read : readRefs json rows = .ok refs)
    (ordered : rows.Pairwise fun row later => row.id < later.id) :
    ∃ ids : List Int, refs.map UnresolvedRef.id = ids.map some ∧ ids.Pairwise (· < ·) := by
  refine ⟨rows.map Keyed.id, ?_, pairwise_map.mpr ordered⟩
  have pairs := readRefs_iff.mp read
  clear read ordered
  induction pairs with
  | nil => rfl
  | cons first later ih => rw [map_cons, map_cons, map_cons, ih, (columns_of_read first).1]

theorem flatten_toChunks_go {α : Type} (size : Nat) (values : List α) (part : Array α) (parts : Array (List α)) :
    (List.toChunks.go size values part parts).flatten = parts.toList.flatten ++ (part.toList ++ values) := by
  induction values generalizing part parts with
  | nil => simp [toChunks.go]
  | cons value values ih =>
    rw [toChunks.go]
    split
    · rw [ih]
      simp
    · rw [ih]
      simp

theorem flatten_toChunks {α : Type} (size : Nat) (values : List α) : (values.toChunks size).flatten = values := by
  cases values with
  | nil => rfl
  | cons value values =>
    cases size with
    | zero => simp [toChunks]
    | succ size => simpa [toChunks] using flatten_toChunks_go (size + 1) values #[value] #[]

/-- A lookup by folded names reads the rows of the languages with one of the names in some case. -/
theorem rows_of_foldedNames {languages : List Language}
    (read : unresolvedRefsByFoldedNames json table names languages = .ok refs) :
    ∃ rows, readRefs json rows = .ok refs ∧ ∀ row, row ∈ rows ↔ row ∈ table.rows ∧
      (row.value.language ∈ languages.map Language.asStr ∧
        toAsciiLowercase row.value.name ∈ names.map toAsciiLowercase) := by
  rw [unresolvedRefsByFoldedNames] at read
  split at read
  · rename_i nothing
    refine ⟨[], read, fun row => iff_of_false not_mem_nil ?_⟩
    rintro ⟨-, language, name⟩
    rcases nothing with rfl | rfl
    · cases language
    · cases name
  · refine ⟨_, read, fun row => ?_⟩
    have whole (name : Text) :
      (∃ chunk ∈ names.dedup.toChunks (sqliteParamChunkSize - languages.length), name ∈ chunk.map toAsciiLowercase) ↔
        name ∈ names.map toAsciiLowercase := by
      have all := flatten_toChunks (sqliteParamChunkSize - languages.length) names.dedup
      simp only [mem_map]
      constructor
      · rintro ⟨chunk, member, found, inside, same⟩
        exact ⟨found, mem_dedup.mp (all ▸ mem_flatten.mpr ⟨chunk, member, inside⟩), same⟩
      · rintro ⟨found, member, same⟩
        obtain ⟨chunk, inside, here⟩ := mem_flatten.mp (all.symm ▸ mem_dedup.mpr member)
        exact ⟨chunk, inside, found, here, same⟩
    rw [mem_rowsOf_map fun row member => ?_, mem_flatMap, ← whole]
    · simp only [mem_filter, decide_eq_true_eq]
      constructor
      · rintro ⟨chunk, member, found, language, name⟩
        exact ⟨found, language, chunk, member, name⟩
      · rintro ⟨found, language, chunk, member, name⟩
        exact ⟨chunk, member, found, language, name⟩
    · obtain ⟨chunk, -, found⟩ := mem_flatMap.mp member
      exact (mem_filter.mp found).1

/-- What the pass chooses by a row itself is what the lookups by folded names and through classes choose. -/
theorem chosen_iff (names : List Text) (foldedLanguages : List Language) (columns : RefColumns) :
    (inAnyCase names foldedLanguages columns || throughClass names columns) ↔
      (columns.language ∈ foldedLanguages.map Language.asStr ∧
        toAsciiLowercase columns.name ∈ names.map toAsciiLowercase) ∨
      (columns.language ∈ [Language.php].map Language.asStr ∧
        toAsciiLowercase columns.name ∈ (names.map ('\\' :: ·)).map toAsciiLowercase) ∨
      isQualifiedPhpCall columns ∧ throughNames names columns.name := by
  have dotted : throughNames names columns.name → '.' ∈ columns.name := by
    intro through
    by_contra free
    rw [throughNames, rsplitOnce, if_neg free] at through
    cases through
  simp only [inAnyCase, throughClass, isQualifiedPhpCall, map_map, map_cons, map_nil, mem_singleton,
    Function.comp_def, Bool.or_eq_true, Bool.and_eq_true, decide_eq_true_eq]
  tauto

/-- A touched name finds in one pass what the separate lookups find. -/
theorem retried_by_names_is_union (json : CandidateText) (table : RefTable) (names : List Text) (ceiling : Nat)
    (foldedLanguages : List Language) {tails folded rooted calls : List UnresolvedRef}
    (byTails : unresolvedRefsByNameTails json table names ceiling = .ok tails)
    (byFolded : unresolvedRefsByFoldedNames json table names foldedLanguages = .ok folded)
    (byRooted : unresolvedRefsByFoldedNames json table (names.map ('\\' :: ·)) [.php] = .ok rooted)
    (byCalls : unresolvedPhpCallsThroughQualifiedClasses json table = .ok calls) :
    ∃ retried, unresolvedRefsRetriedByNames json table names ceiling foldedLanguages = .ok retried ∧
      (∃ ids : List Int, retried.map UnresolvedRef.id = ids.map some ∧ ids.Pairwise (· < ·)) ∧
      ∀ reference, reference ∈ retried ↔ reference ∈ tails ∨ reference ∈ folded ∨ reference ∈ rooted ∨
        reference ∈ calls ∧ throughNames names reference.referenceName.toList := by
  by_cases nothing : names = []
  · subst nothing
    rw [unresolvedRefsByNameTails, if_pos rfl] at byTails
    rw [unresolvedRefsByFoldedNames, if_pos (.inr rfl)] at byFolded byRooted
    cases byTails
    cases byFolded
    cases byRooted
    refine ⟨[], if_pos rfl, ⟨[], rfl, .nil⟩, fun reference => ?_⟩
    have never : throughNames [] reference.referenceName.toList = false := by
      rw [throughNames]
      cases rsplitOnce reference.referenceName.toList '.' <;> rfl
    simp [never]
  · rw [unresolvedRefsByNameTails, if_neg nothing] at byTails
    obtain ⟨entries, tailed, byTails⟩ := ok_of_bind byTails
    let languages := foldedLanguages.map Language.asStr ++ [Language.php.asStr]
    let rows := table.rows.filter fun row => isQualified row.value || row.value.language ∈ languages
    let chosen := rows.filter fun row => inAnyCase names foldedLanguages row.value || throughClass names row.value
    have qualified : (rows.filter fun row => isQualified row.value) = table.rows.filter fun row =>
      isQualified row.value := by
      rw [filter_filter]
      refine filter_congr fun row _ => ?_
      cases isQualified row.value <;> rfl
    have inside : chosen ⊆ table.rows := (filter_sublist.trans filter_sublist).subset
    have separate (row : Keyed RefColumns) : row ∈ chosen ↔ row ∈ table.rows ∧
        (inAnyCase names foldedLanguages row.value || throughClass names row.value) := by
      rw [mem_filter, mem_filter, and_assoc]
      refine and_congr_right fun _ => and_iff_right_of_imp fun found => ?_
      rw [Bool.or_eq_true, decide_eq_true_eq]
      refine .inr (mem_append.mpr ?_)
      rcases (chosen_iff names foldedLanguages row.value).mp found with ⟨language, -⟩ | ⟨language, -⟩ | ⟨call, -⟩
      · exact .inl language
      · exact .inr language
      · simp only [isQualifiedPhpCall, Bool.and_eq_true, decide_eq_true_eq] at call
        exact .inr (mem_singleton.mpr call.1.1.1)
    have members (row : Keyed RefColumns) : row ∈
      table.rowsOf (chosen.map Keyed.id ++ withinCeiling ceiling (bucketed entries)) ↔
        row ∈ table.rowsOf (withinCeiling ceiling (bucketed entries)) ∨ row ∈ chosen := by
      rw [← mem_rowsOf_map inside, mem_rowsOf, mem_rowsOf, mem_rowsOf, mem_append, or_comm, and_or_left]
    obtain ⟨foldedRows, readFolded, inFolded⟩ := rows_of_foldedNames byFolded
    obtain ⟨rootedRows, readRooted, inRooted⟩ := rows_of_foldedNames byRooted
    have parts (row : Keyed RefColumns) : row ∈ chosen ↔ row ∈ foldedRows ∨ row ∈ rootedRows ∨
        row ∈ (table.rows.filter fun row => isQualifiedPhpCall row.value) ∧ throughNames names row.value.name := by
      rw [separate, chosen_iff, inFolded, inRooted, mem_filter, and_or_left, and_or_left, and_assoc]
    have found (reference : UnresolvedRef) : (∃ row ∈ chosen, rowToUnresolvedRef json row = .ok reference) ↔
        reference ∈ folded ∨ reference ∈ rooted ∨
          reference ∈ calls ∧ throughNames names reference.referenceName.toList := by
      rw [mem_of_readRefs readFolded, mem_of_readRefs readRooted, mem_of_readRefs byCalls]
      have named (row : Keyed RefColumns) (read : rowToUnresolvedRef json row = .ok reference) :
          throughNames names row.value.name ↔ throughNames names reference.referenceName.toList := by
        rw [(columns_of_read read).2, RefColumns.name]
      constructor
      · rintro ⟨row, member, read⟩
        rcases (parts row).mp member with any | any | ⟨call, through⟩
        · exact .inl ⟨row, any, read⟩
        · exact .inr (.inl ⟨row, any, read⟩)
        · exact .inr (.inr ⟨⟨row, call, read⟩, (named row read).mp through⟩)
      · rintro (⟨row, any, read⟩ | ⟨row, any, read⟩ | ⟨⟨row, call, read⟩, through⟩)
        · exact ⟨row, (parts row).mpr (.inl any), read⟩
        · exact ⟨row, (parts row).mpr (.inr (.inl any)), read⟩
        · exact ⟨row, (parts row).mpr (.inr (.inr ⟨call, (named row read).mpr through⟩)), read⟩
    have readable : ∀ row ∈ table.rowsOf (chosen.map Keyed.id ++ withinCeiling ceiling (bucketed entries)),
        ∃ reference, rowToUnresolvedRef json row = .ok reference := by
      intro row member
      rcases (members row).mp member with tail | own
      · exact readable_of_readRefs byTails tail
      · rcases (parts row).mp own with any | any | ⟨call, -⟩
        · exact readable_of_readRefs readFolded any
        · exact readable_of_readRefs readRooted any
        · exact readable_of_readRefs byCalls call
    obtain ⟨retried, read⟩ := readRefs_of_readable readable
    refine ⟨retried, ?_, ordered_of_readRefs read (table.ordered.sublist filter_sublist), fun reference => ?_⟩
    · rw [unresolvedRefsRetriedByNames, if_neg nothing]
      change (tailEntries names (rows.filter fun row => isQualified row.value) >>= _) = _
      rw [qualified, tailed]
      exact read
    · rw [mem_of_readRefs read, mem_of_readRefs byTails, ← found]
      simp only [members, or_and_right, exists_or]

/-- Texts of which every character is escaped, and every text ends with a quote. -/
def readEscaped (text : Text) : Text → Option (List String)
  | '\\' :: c :: rest => readEscaped (text ++ [c]) rest
  | '"' :: rest => (readEscaped [] rest).map (String.ofList text :: ·)
  | [] => if text = [] then some [] else none
  | _ => none

def escaped (text : Text) : Text := text.flatMap (fun c => ['\\', c]) ++ ['"']

theorem readEscaped_escaped (read text rest : Text) :
    readEscaped read (escaped text ++ rest) = (readEscaped [] rest).map (String.ofList (read ++ text) :: ·) := by
  induction text generalizing read with
  | nil => simp [escaped, readEscaped]
  | cons c text ih =>
    have step : readEscaped read (escaped (c :: text) ++ rest) = readEscaped (read ++ [c]) (escaped text ++ rest) :=
      rfl
    rw [step, ih, append_assoc]
    rfl

def escapedTexts : CandidateText where
  toText candidates := String.ofList (candidates.flatMap fun candidate => escaped candidate.toList)
  fromText text := readEscaped [] text.toList
  readBack candidates := by
    rw [String.toList_ofList]
    induction candidates with
    | nil => rfl
    | cons candidate candidates ih => simp [readEscaped_escaped, ih]

/-- A row of a call with its key, its name and its language. -/
def callRow (id : Int) (name language : String) : Keyed RefColumns :=
  ⟨id, ⟨"function:caller", name, "calls", 1, 0, none, "caller", language, none⟩⟩

/-- A call through a class, a call of a function in another case, and two calls of a member. -/
def parkedCalls : RefTable where
  rows := [callRow 1 "F\\Other.helper" "php", callRow 2 "\\HELPER" "php", callRow 4 "a.helper" "go",
    callRow 7 "a.other" "go"]
  ordered := by decide

def refOf (row : Keyed RefColumns) : List UnresolvedRef := (rowToUnresolvedRef escapedTexts row).toOption.toList

/-- Calls that are parked under several names. -/
theorem retried_by_names_is_union_parked :
    ∃ retried, unresolvedRefsRetriedByNames escapedTexts parkedCalls ["helper".toList] 3 [.php] = .ok retried ∧
      (∃ ids : List Int, retried.map UnresolvedRef.id = ids.map some ∧ ids.Pairwise (· < ·)) ∧
      ∀ reference, reference ∈ retried ↔
        reference ∈ [callRow 1 "F\\Other.helper" "php", callRow 4 "a.helper" "go"].flatMap refOf ∨
          reference ∈ ([] : List UnresolvedRef) ∨
          reference ∈ refOf (callRow 2 "\\HELPER" "php") ∨
          reference ∈ refOf (callRow 1 "F\\Other.helper" "php") ∧
            throughNames ["helper".toList] reference.referenceName.toList :=
  retried_by_names_is_union escapedTexts parkedCalls ["helper".toList] 3 [.php] (by rfl) (by rfl) (by rfl) (by rfl)

end Union

end Codegraph.Store
