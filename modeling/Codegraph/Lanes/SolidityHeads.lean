import Codegraph.Lanes.TwoStates
import Codegraph.Library.Worklists
import Mathlib.Data.Finset.SymmDiff

/- This file models the inheritance around a line of a Solidity file and what a sync retries when changed heads move
it. -/

namespace Codegraph.Lanes.Solidity

open Watch.Scope (Text)
open Worklists List

/-- How many type names one hierarchy holds. -/
def hierarchyLimit : Nat := 60

/-- A declared type: the names that its head lists and the lines it spans. -/
structure SolidityType where
  name : Text
  supers : List Text
  startLine : Nat
  endLine : Nat
  deriving DecidableEq

def SolidityType.around (type : SolidityType) (line : Nat) : Bool := type.startLine ≤ line && line ≤ type.endLine

structure HeadEntry where
  name : Text
  supers : List Text
  deriving DecidableEq

def HeadEntry.le (first second : HeadEntry) : Bool :=
  if first.name ≠ second.name then first.name < second.name else first.supers ≤ second.supers

def headEntry (type : SolidityType) : HeadEntry := ⟨type.name, type.supers⟩

/-- The row of a file sorts the heads of its types, so it forgets where they stand. -/
def rowOf (types : List SolidityType) : Option (List HeadEntry) := sortedRow HeadEntry.le (types.map headEntry)

section Resolution

variable (paths : List Text) (state : Text → List SolidityType)

/-- What the declarations of a name inherit, by path and then in the order of their file. -/
def supertypesOf (name : Text) : List Text :=
  (paths.flatMap fun path => (state path).filter (·.name = name)).flatMap (·.supers)

def typesAt (file : Text) (line : Nat) : List Text := ((state file).filter (·.around line)).map (·.name)

/-- The types around a line and every type they inherit, up to the limit. -/
def hierarchyAt (file : Text) (line : Nat) : Finset Text :=
  (walk (supertypesOf paths state) hierarchyLimit (typesAt state file line) []).toFinset

end Resolution

/-- A row's bases by type name, one list for each declaration of the name. -/
def entriesByName (row : Option (List HeadEntry)) (name : Text) : List (List Text) :=
  ((row.getD []).filter (·.name = name)).map (·.supers)

/-- The names whose entries a sync changed. -/
def seeds (changes : List (Text × Change HeadEntry)) : List Text :=
  (Lanes.seeds HeadEntry.name entriesByName changes).dedup

/-- Each base with each type whose head names it. -/
def inheriting (rows : List (Text × List HeadEntry)) : List (Text × Text) :=
  rows.flatMap fun row => row.2.flatMap fun entry => entry.supers.map (·, entry.name)

/-- The seeds and every type whose head names a reached name. The queue is a stack. -/
def reachedNames (rows : List (Text × List HeadEntry)) (seeds : List Text) : List Text :=
  spread (targets (inheriting rows)) (fun rest fresh => fresh.reverse ++ rest)
    (seeds.length + (inheriting rows).length) seeds.reverse seeds

/-- The files that declare a reached name. -/
def closure (rows : List (Text × List HeadEntry)) (seeds : List Text) : List Text :=
  (rows.filter fun row => row.2.any fun entry => entry.name ∈ reachedNames rows seeds).map Prod.fst

/-- Every name's bases in the rows, each declaration of it counted. -/
def supersByName (rows : List (Text × List HeadEntry)) (name : Text) : List Text :=
  rows.flatMap fun row => (row.2.filter (·.name = name)).flatMap (·.supers)

/-- The names that the chain of a type reaches. A walk past the limit gives none. -/
def hierarchy (name : Text) (supers : Text → List Text) : Option (List Text) :=
  let names := walk supers (hierarchyLimit + 1) [name] []
  if hierarchyLimit < names.length then none else some names

/-- The unchanged files to re-resolve whole, and the types that entered or left a chain of each other file that the
heads reach. -/
structure SolidityRefresh where
  files : List Text
  moved : List (Text × List Text)

/-- The paths of the sync are those of the Solidity files, which all re-resolve when the rows are rebuilt. -/
def solidityRefresh (sync : Sync SolidityType) (bootstrap : Bool) : SolidityRefresh :=
  if bootstrap then ⟨sync.paths.filter fun path => !sync.changed path, []⟩ else
  let beforeRows := sync.beforeRows rowOf
  let afterRows := sync.afterRows rowOf
  let before := supersByName beforeRows
  let after := supersByName afterRows
  let declaring := closure afterRows (seeds (sync.changes rowOf))
  let touched := (sync.stored rowOf).filter fun row => row.1 ∈ declaring
  let whole (row : Text × List HeadEntry) : Bool :=
    row.2.any fun entry => (hierarchy entry.name before).isNone || (hierarchy entry.name after).isNone
  { files := (touched.filter whole).map Prod.fst
    moved := (touched.filter fun row => !whole row).map fun row =>
      (row.1, row.2.flatMap fun entry =>
        let old := (hierarchy entry.name before).getD []
        let new := (hierarchy entry.name after).getD []
        old.filter (· ∉ new) ++ new.filter (· ∉ old)) }

section Rows

variable {rows : List (Text × List HeadEntry)} {paths : List Text} {state : Text → List SolidityType}
  {name target start : Text}

theorem mem_supertypesOf : target ∈ supertypesOf paths state name ↔
    ∃ path ∈ paths, ∃ type ∈ state path, type.name = name ∧ target ∈ type.supers := by
  simp only [supertypesOf, mem_flatMap, mem_filter, decide_eq_true_eq]
  constructor
  · rintro ⟨type, ⟨path, known, member, named⟩, written⟩
    exact ⟨path, known, type, member, named, written⟩
  · rintro ⟨path, known, type, member, named, written⟩
    exact ⟨type, ⟨path, known, member, named⟩, written⟩

section

variable (read : RowsOf rowOf rows paths state)
include read

/-- The entries of the rows are the heads of the declared types. -/
theorem exists_entry {entry : HeadEntry} :
    (∃ row ∈ rows, entry ∈ row.2) ↔ ∃ path ∈ paths, ∃ type ∈ state path, headEntry type = entry := by
  have heads : RowsOf (sortedRow HeadEntry.le) rows paths fun path => (state path).map headEntry := read
  rw [heads.exists_entry]
  simp only [mem_map]

theorem exists_entry_iff : (∃ row ∈ rows, ∃ entry ∈ row.2, entry.name = name ∧ target ∈ entry.supers) ↔
      target ∈ supertypesOf paths state name := by
  rw [mem_supertypesOf]
  constructor
  · rintro ⟨row, listed, entry, member, rfl, written⟩
    obtain ⟨path, known, type, declared, rfl⟩ := (exists_entry read).mp ⟨row, listed, member⟩
    exact ⟨path, known, type, declared, rfl, written⟩
  · rintro ⟨path, known, type, declared, rfl, written⟩
    obtain ⟨row, listed, member⟩ := (exists_entry read).mpr ⟨path, known, type, declared, rfl⟩
    exact ⟨row, listed, _, member, rfl, written⟩

theorem mem_supersByName : target ∈ supersByName rows name ↔ target ∈ supertypesOf paths state name := by
  rw [← exists_entry_iff read]
  simp only [supersByName, mem_flatMap, mem_filter, decide_eq_true_eq, and_assoc]

theorem mem_inheriting : (target, name) ∈ inheriting rows ↔ target ∈ supertypesOf paths state name := by
  rw [← exists_entry_iff read]
  simp only [inheriting, mem_flatMap, mem_map, Prod.mk.injEq]
  constructor
  · rintro ⟨row, listed, entry, member, _, written, rfl, rfl⟩
    exact ⟨row, listed, entry, member, rfl, written⟩
  · rintro ⟨row, listed, entry, member, rfl, written⟩
    exact ⟨row, listed, entry, member, _, written, rfl, rfl⟩

theorem reaches_supersByName :
    Reaches (supersByName rows) start target ↔ Reaches (supertypesOf paths state) start target := by
  constructor
  · exact reaches_mono fun place next taken => (mem_supersByName read).mp taken
  · exact reaches_mono fun place next taken => (mem_supersByName read).mpr taken

/-- The stack reaches the names whose chain holds a seed. -/
theorem mem_reachedNames {seeds : List Text} (once : seeds.Nodup) :
    name ∈ reachedNames rows seeds ↔ ∃ seed ∈ seeds, Reaches (supertypesOf paths state) name seed := by
  have targeted (place : Text) : targets (inheriting rows) place ⊆ seeds ++ (inheriting rows).map Prod.snd :=
    fun other taken => mem_append_right _ (mem_map_of_mem (mem_targets.mp taken))
  have pushes (rest fresh : List Text) : (fresh.reverse ++ rest).Perm (rest ++ fresh) :=
    perm_append_comm.trans ((reverse_perm fresh).append_left rest)
  rw [reachedNames,
    mem_spread_iff pushes once (reverse_perm seeds) (subset_append_left _ _) targeted (by simp)]
  have turned (seed : Text) : Reaches (targets (inheriting rows)) seed name ↔
    Reaches (supertypesOf paths state) name seed := by
    have same : (fun first second => second ∈ targets (inheriting rows) first) =
        Function.swap fun first second => second ∈ supertypesOf paths state first := by
      funext first second
      exact propext (mem_targets.trans (mem_inheriting read))
    unfold Reaches
    rw [same]
    exact Relation.reflTransGen_swap
  simp only [turned]

theorem mem_closure_files {seeds : List Text} (once : seeds.Nodup) {path : Text} {entries : List HeadEntry}
    (listed : (path, entries) ∈ rows) {entry : HeadEntry} (member : entry ∈ entries)
    (reached : ∃ seed ∈ seeds, Reaches (supertypesOf paths state) entry.name seed) : path ∈ closure rows seeds := by
  refine mem_map.mpr ⟨(path, entries), mem_filter.mpr ⟨listed, ?_⟩, rfl⟩
  exact any_eq_true.mpr ⟨entry, member, decide_eq_true ((mem_reachedNames read once).mpr reached)⟩

/-- A hierarchy that stays at the limit holds what the chain of the type reaches. -/
theorem hierarchy_some {names : List Text} (found : hierarchy start (supersByName rows) = some names) :
    target ∈ names ↔ Reaches (supertypesOf paths state) start target := by
  unfold hierarchy at found
  dsimp only at found
  split at found
  · cases found
  · rename_i short
    rw [← Option.some.inj found, mem_walk_iff (Nat.lt_succ_of_le (not_lt.mp short))]
    simp only [mem_singleton, exists_eq_left, reaches_supersByName read]

end

end Rows

section Movement

variable {sync : Sync SolidityType} {name target start file : Text} {line : Nat} {types : List SolidityType}
  {paths : List Text} {state : Text → List SolidityType}

theorem nodup_seeds {changes : List (Text × Change HeadEntry)} : (seeds changes).Nodup := nodup_dedup _

theorem mem_entriesByName {supers : List Text} :
    supers ∈ entriesByName (rowOf types) name ↔ ∃ type ∈ types, type.name = name ∧ type.supers = supers := by
  simp only [entriesByName, rowOf, mem_map, mem_filter, decide_eq_true_eq, mem_sortedRow]
  constructor
  · rintro ⟨_, ⟨⟨type, member, rfl⟩, named⟩, rfl⟩
    exact ⟨type, member, named, rfl⟩
  · rintro ⟨type, member, named, rfl⟩
    exact ⟨headEntry type, ⟨⟨type, member, rfl⟩, named⟩, rfl⟩

theorem entriesByName_absent (row : Option (List HeadEntry)) (name : Text)
    (absent : name ∉ (row.getD []).map HeadEntry.name) : entriesByName row name = [] := by
  have none : (row.getD []).filter (·.name = name) = [] := by
    rw [filter_eq_nil_iff]
    intro entry member same
    exact absent (mem_map.mpr ⟨entry, member, of_decide_eq_true same⟩)
  rw [entriesByName, none, map_nil]

theorem entriesByName_of_not_seed (unseeded : name ∉ seeds (sync.changes rowOf)) {path : Text}
    (known : path ∈ sync.paths) :
    entriesByName (rowOf (sync.before path)) name = entriesByName (rowOf (sync.after path)) name :=
  table_of_not_seed entriesByName_absent (fun seeded => unseeded (mem_dedup.mpr seeded)) known

theorem mem_supertypesOf_iff : target ∈ supertypesOf paths state name ↔
    ∃ path ∈ paths, ∃ supers ∈ entriesByName (rowOf (state path)) name, target ∈ supers := by
  rw [mem_supertypesOf]
  simp only [mem_entriesByName]
  constructor
  · rintro ⟨path, known, type, member, named, written⟩
    exact ⟨path, known, _, ⟨type, member, named, rfl⟩, written⟩
  · rintro ⟨path, known, _, ⟨type, member, named, rfl⟩, written⟩
    exact ⟨path, known, type, member, named, written⟩

/-- A name that is no seed inherits the same names on both sides. -/
theorem mem_supertypesOf_of_not_seed (unseeded : name ∉ seeds (sync.changes rowOf)) :
    target ∈ supertypesOf sync.paths sync.before name ↔ target ∈ supertypesOf sync.paths sync.after name := by
  rw [mem_supertypesOf_iff, mem_supertypesOf_iff]
  exact exists_congr fun path => and_congr_right fun known => by rw [entriesByName_of_not_seed unseeded known]

theorem kept_before (place : Text) (unseeded : ¬ place ∈ seeds (sync.changes rowOf)) :
    supertypesOf sync.paths sync.before place ⊆ supertypesOf sync.paths sync.after place :=
  fun _ taken => (mem_supertypesOf_of_not_seed unseeded).mp taken

theorem kept_after (place : Text) (unseeded : ¬ place ∈ seeds (sync.changes rowOf)) :
    supertypesOf sync.paths sync.after place ⊆ supertypesOf sync.paths sync.before place :=
  fun _ taken => (mem_supertypesOf_of_not_seed unseeded).mpr taken

/-- What a chain gains or loses lies behind a seed that the chain reaches after the sync. -/
theorem exists_seed_of_moved (moved : ¬ (Reaches (supertypesOf sync.paths sync.before) start target ↔
      Reaches (supertypesOf sync.paths sync.after) start target)) :
    ∃ seed ∈ seeds (sync.changes rowOf), Reaches (supertypesOf sync.paths sync.after) start seed := by
  by_cases old : Reaches (supertypesOf sync.paths sync.before) start target
  · rcases reaches_of_kept kept_before old with new | ⟨seed, isSeed, -, still, -⟩
    · exact absurd (iff_of_true old new) moved
    · exact ⟨seed, isSeed, still⟩
  · by_cases new : Reaches (supertypesOf sync.paths sync.after) start target
    · rcases reaches_of_kept kept_after new with there | ⟨seed, isSeed, here, -, -⟩
      · exact absurd there old
      · exact ⟨seed, isSeed, here⟩
    · exact absurd (iff_of_false old new) moved

end Movement

section Claims

variable (sync : Sync SolidityType) (file : Text) (line : Nat)

/-- The names that some starts reach fit into one hierarchy. -/
def Few (paths : List Text) (state : Text → List SolidityType) (starts : List Text) : Prop :=
  ∃ names : List Text, names.length ≤ hierarchyLimit ∧
    ∀ name, (∃ start ∈ starts, Reaches (supertypesOf paths state) start name) → name ∈ names

/-- The file re-resolves whole, or every type that entered or left the hierarchy of the line counts as moved for it. -/
def Covered (bootstrap : Bool) : Prop :=
  file ∈ (solidityRefresh sync bootstrap).files ∨
    ∀ owner ∈ symmDiff (hierarchyAt sync.paths sync.before file line) (hierarchyAt sync.paths sync.after file line),
      ∃ moved, (file, moved) ∈ (solidityRefresh sync bootstrap).moved ∧ owner ∈ moved

/-- The lane reads all rows anew, or the types around the line fit into one hierarchy, or the lane reads the file
whole, or every name that the walk of the line still has room behind inherits the same names in the same order. -/
def Readable (bootstrap : Bool) : Prop :=
  bootstrap = true ∨
  (Few sync.paths sync.before (typesAt sync.before file line) ∧
    Few sync.paths sync.after (typesAt sync.after file line)) ∨
  ((∃ type ∈ sync.before file, ∃ seed ∈ seeds (sync.changes rowOf),
    Reaches (supertypesOf sync.paths sync.after) type.name seed) ∧
    ∃ type ∈ sync.before file, ¬ Few sync.paths sync.before [type.name] ∨ ¬ Few sync.paths sync.after [type.name]) ∨
  ∀ name, Early (supertypesOf sync.paths sync.before) (typesAt sync.before file line) hierarchyLimit name →
    supertypesOf sync.paths sync.before name = supertypesOf sync.paths sync.after name

variable {sync file line} {start target : Text}

/-- An unchanged file of which a type reaches a seed is among the files that the lane reads. -/
theorem exists_touched (listed : file ∈ sync.paths) (kept : sync.changed file = false) {type : SolidityType}
    (declared : type ∈ sync.before file)
    (reached : ∃ seed ∈ seeds (sync.changes rowOf), Reaches (supertypesOf sync.paths sync.after) type.name seed) :
    ∃ entries, rowOf (sync.before file) = some entries ∧
      (file, entries) ∈ (sync.stored rowOf).filter fun row => row.1 ∈ closure (sync.afterRows rowOf)
      (seeds (sync.changes rowOf)) := by
  obtain ⟨entries, found, member⟩ :=
    @exists_sortedRow _ HeadEntry.le _ _ (mem_map_of_mem (f := headEntry) declared)
  have row : rowOf (sync.before file) = some entries := found
  refine ⟨entries, row, mem_filter.mpr ⟨Sync.mem_stored.mpr ⟨listed, kept, row⟩, decide_eq_true ?_⟩⟩
  have after : (file, entries) ∈ sync.afterRows rowOf := Sync.mem_afterRows.mpr ⟨listed, sync.kept file kept ▸ row⟩
  exact mem_closure_files rowsOf_after nodup_seeds after member reached

/-- A chain that moved, of a type whose file is not read whole, moves the file. -/
theorem covered_of_moved (listed : file ∈ sync.paths) (kept : sync.changed file = false) {type : SolidityType}
    (declared : type ∈ sync.before file) (moved : ¬ (Reaches (supertypesOf sync.paths sync.before) type.name target ↔
      Reaches (supertypesOf sync.paths sync.after) type.name target)) : file ∈ (solidityRefresh sync false).files ∨
      ∃ moved, (file, moved) ∈ (solidityRefresh sync false).moved ∧ target ∈ moved := by
  obtain ⟨entries, row, touched⟩ := exists_touched listed kept declared (exists_seed_of_moved moved)
  have member : headEntry type ∈ entries := (mem_of_sortedRow row).mpr (mem_map_of_mem declared)
  by_cases whole : entries.any fun entry => (hierarchy entry.name (supersByName (sync.beforeRows rowOf))).isNone ||
      (hierarchy entry.name (supersByName (sync.afterRows rowOf))).isNone
  · exact .inl (mem_map.mpr ⟨(file, entries), mem_filter.mpr ⟨touched, whole⟩, rfl⟩)
  · refine .inr ⟨_, mem_map.mpr ⟨(file, entries), mem_filter.mpr ⟨touched, ?_⟩, rfl⟩, ?_⟩
    · exact (Bool.not_eq_true' _).mpr (Bool.eq_false_iff.mpr whole)
    · have both := any_eq_false.mp (Bool.eq_false_iff.mpr whole) _ member
      simp only [Bool.or_eq_true, Option.isNone_iff_eq_none, not_or, ← ne_eq, Option.ne_none_iff_exists'] at both
      obtain ⟨⟨old, foundOld⟩, new, foundNew⟩ := both
      refine mem_flatMap.mpr ⟨headEntry type, member, ?_⟩
      rw [foundOld, foundNew, Option.getD_some, Option.getD_some, mem_append, mem_filter, mem_filter,
        decide_eq_true_eq, decide_eq_true_eq, hierarchy_some rowsOf_before foundOld,
          hierarchy_some rowsOf_after foundNew]
      by_cases before : Reaches (supertypesOf sync.paths sync.before) type.name target
      · exact .inl ⟨before, fun after => moved (iff_of_true before after)⟩
      · exact .inr ⟨by_contra fun after => moved (iff_of_false before after), before⟩

theorem mem_hierarchyAt {paths : List Text} {state : Text → List SolidityType}
    (few : Few paths state (typesAt state file line)) : target ∈ hierarchyAt paths state file line ↔
      ∃ start ∈ typesAt state file line, Reaches (supertypesOf paths state) start target := by
  obtain ⟨names, short, all⟩ := few
  rw [hierarchyAt, mem_toFinset, mem_walk_iff_of_few short all]

/-- The lane covers a line whose types fit into one hierarchy. -/
theorem covered_of_few (listed : file ∈ sync.paths) (kept : sync.changed file = false)
    (old : Few sync.paths sync.before (typesAt sync.before file line))
    (new : Few sync.paths sync.after (typesAt sync.after file line)) : Covered sync file line false := by
  by_contra uncovered
  obtain ⟨partly, moves⟩ := not_or.mp uncovered
  refine moves fun owner differs => ?_
  rw [Finset.mem_symmDiff, mem_hierarchyAt old, mem_hierarchyAt new] at differs
  have types : typesAt sync.after file line = typesAt sync.before file line := by
    rw [typesAt, typesAt, sync.kept file kept]
  rw [types] at differs
  obtain ⟨start, begun, moved⟩ : ∃ start ∈ typesAt sync.before file line,
    ¬ (Reaches (supertypesOf sync.paths sync.before) start owner ↔
      Reaches (supertypesOf sync.paths sync.after) start owner) := by
    rcases differs with ⟨⟨start, begun, reaches⟩, lost⟩ | ⟨⟨start, begun, reaches⟩, lost⟩
    · exact ⟨start, begun, fun same => lost ⟨start, begun, same.mp reaches⟩⟩
    · exact ⟨start, begun, fun same => lost ⟨start, begun, same.mpr reaches⟩⟩
  obtain ⟨type, around, rfl⟩ := mem_map.mp begun
  exact (covered_of_moved listed kept (mem_filter.mp around).1 moved).resolve_left partly

/-- A type of the file past the limit makes the lane read the file whole. -/
theorem covered_of_long (listed : file ∈ sync.paths) (kept : sync.changed file = false)
    (reached : ∃ type ∈ sync.before file, ∃ seed ∈ seeds (sync.changes rowOf),
      Reaches (supertypesOf sync.paths sync.after) type.name seed)
    (long : ∃ type ∈ sync.before file, ¬ Few sync.paths sync.before [type.name] ∨
      ¬ Few sync.paths sync.after [type.name]) : Covered sync file line false := by
  obtain ⟨near, declared, reaches⟩ := reached
  obtain ⟨type, member, far⟩ := long
  obtain ⟨entries, row, touched⟩ := exists_touched listed kept declared reaches
  have few {rows : List (Text × List HeadEntry)} {state : Text → List SolidityType}
    (read : RowsOf rowOf rows sync.paths state)
      (walked : (hierarchy type.name (supersByName rows)).isNone = false) : Few sync.paths state [type.name] := by
    obtain ⟨names, found⟩ := Option.isSome_iff_exists.mp (Option.isNone_eq_false_iff.mp walked)
    refine ⟨names, ?_, fun name reached => (hierarchy_some read found).mpr ?_⟩
    · unfold hierarchy at found
      dsimp only at found
      split at found
      · cases found
      · rename_i short
        exact Option.some.inj found ▸ not_lt.mp short
    · obtain ⟨start, single, reaches⟩ := reached
      exact mem_singleton.mp single ▸ reaches
  have whole : ((hierarchy type.name (supersByName (sync.beforeRows rowOf))).isNone ||
      (hierarchy type.name (supersByName (sync.afterRows rowOf))).isNone) = true := by
    by_contra walked
    simp only [Bool.or_eq_true, not_or, Bool.not_eq_true] at walked
    exact far.elim (fun past => past (few rowsOf_before walked.1)) (fun past => past (few rowsOf_after walked.2))
  refine .inl (mem_map.mpr ⟨(file, entries), mem_filter.mpr ⟨touched, ?_⟩, rfl⟩)
  exact any_eq_true.mpr ⟨headEntry type, (mem_of_sortedRow row).mpr (mem_map_of_mem member), whole⟩

/-- A line keeps its hierarchy when its walk reads the same heads in the same order. -/
theorem covered_of_early (kept : sync.changed file = false)
    (keeps : ∀ name, Early (supertypesOf sync.paths sync.before) (typesAt sync.before file line) hierarchyLimit name →
      supertypesOf sync.paths sync.before name = supertypesOf sync.paths sync.after name) :
    Covered sync file line false := by
  have types : typesAt sync.after file line = typesAt sync.before file line := by
    rw [typesAt, typesAt, sync.kept file kept]
  have same : hierarchyAt sync.paths sync.before file line = hierarchyAt sync.paths sync.after file line := by
    rw [hierarchyAt, hierarchyAt, types, walk_congr_early keeps]
  refine .inr fun owner differs => ?_
  rw [same, symmDiff_self] at differs
  cases differs

/-- The lane covers every line of an unchanged file that it can read. -/
theorem solidity_lane_covers (sync : Sync SolidityType) (bootstrap : Bool) (file : Text) (line : Nat)
    (listed : file ∈ sync.paths) (kept : sync.changed file = false) (readable : Readable sync file line bootstrap) :
    Covered sync file line bootstrap := by
  cases bootstrap with
  | true => exact .inl (mem_filter.mpr ⟨listed, by rw [kept]; rfl⟩)
  | false =>
    rcases readable with rebuilt | ⟨old, new⟩ | ⟨reached, long⟩ | keeps
    · cases rebuilt
    · exact covered_of_few listed kept old new
    · exact covered_of_long listed kept reached long
    · exact covered_of_early kept keeps

theorem few_of_walk {paths : List Text} {state : Text → List SolidityType} {starts : List Text}
    (short : (walk (supertypesOf paths state) (hierarchyLimit + 1) starts []).length ≤ hierarchyLimit) :
    Few paths state starts :=
  ⟨_, short, fun _ reached => (mem_walk_iff (Nat.lt_succ_of_le short)).mpr reached⟩

/-- Two contracts of one file stand on a line that both span. -/
def twoContracts : List SolidityType := [⟨"A".toList, ["P".toList], 1, 3⟩, ⟨"B".toList, ["Qaa".toList], 3, 3⟩]

/-- The base of the first contract gets a base of its own, beside a chain of contracts. -/
def newBase (chain : List SolidityType) : Sync SolidityType :=
  { paths := ["chain.sol".toList, "p.sol".toList, "two.sol".toList]
    ordered := by decide
    before := fun path =>
      if path = "p.sol".toList then [⟨"P".toList, [], 1, 1⟩] else if path = "two.sol".toList then twoContracts
      else if path = "chain.sol".toList then chain else []
    after := fun path =>
      if path = "p.sol".toList then [⟨"P".toList, ["R".toList], 1, 1⟩] else if path = "two.sol".toList then twoContracts
      else if path = "chain.sol".toList then chain else []
    changed := fun path => path = "p.sol".toList
    kept := by
      intro path kept
      rw [if_neg (of_decide_eq_false kept), if_neg (of_decide_eq_false kept)] }

/-- A contract whose base changes. -/
theorem solidity_lane_covers_base : Covered (newBase []) "two.sol".toList 3 false :=
  solidity_lane_covers (newBase []) false "two.sol".toList 3 (by decide) (by decide)
    (.inr (.inl ⟨few_of_walk (by decide +kernel), few_of_walk (by decide +kernel)⟩))

def chainName (place : Nat) : Text := ['Q', Char.ofNat (97 + place / 26), Char.ofNat (97 + place % 26)]

/-- A chain of contracts, each inheriting the next. -/
def chain (length : Nat) : List SolidityType :=
  (List.range length).map fun place => ⟨chainName place, [chainName (place + 1)], place, place⟩

/-- The hierarchy of the line loses the end of the chain, and the lane sees the new base alone. -/
theorem shared_line_is_missed : ¬ Covered (newBase (chain 58)) "two.sol".toList 3 false := by
  have missed : chainName 56 ∈ hierarchyAt (newBase (chain 58)).paths (newBase (chain 58)).before "two.sol".toList 3 ∧
      chainName 56 ∉ hierarchyAt (newBase (chain 58)).paths (newBase (chain 58)).after "two.sol".toList 3 ∧
      "two.sol".toList ∉ (solidityRefresh (newBase (chain 58)) false).files ∧
      (solidityRefresh (newBase (chain 58)) false).moved = [("two.sol".toList, ["R".toList])] := by decide +kernel
  obtain ⟨old, lost, partly, moved⟩ := missed
  rintro (whole | covered)
  · exact partly whole
  · obtain ⟨types, listed, member⟩ := covered _ (Finset.mem_symmDiff.mpr (.inl ⟨old, lost⟩))
    rw [moved, mem_singleton] at listed
    obtain ⟨-, rfl⟩ := Prod.mk.inj listed
    exact absurd member (by decide)

end Claims

end Codegraph.Lanes.Solidity
