import Codegraph.Lanes.TwoStates
import Codegraph.Library.Worklists
import Mathlib.Data.Finset.SymmDiff

/- This file models the ancestry of a PHP type and what a sync re-resolves when the heads of changed files move it. -/

namespace Codegraph.Lanes.Php

open Watch.Scope (Text)
open Worklists List

/-- The most types one ancestry walk visits. -/
def ancestryLimit : Nat := 80

/-- The kinds that a PHP type is indexed as. -/
inductive PhpKind where
  | class_
  | trait
  | interface
  | enum
  deriving DecidableEq

def PhpKind.asStr : PhpKind → Text
  | .class_ => "class".toList
  | .trait => "trait".toList
  | .interface => "interface".toList
  | .enum => "enum".toList

/-- One type declaration: its kind and the qualified names it extends and uses. -/
structure HeadEntry where
  qualifiedName : Text
  kind : PhpKind
  supers : List Text
  deriving DecidableEq

/-- Entries are compared by name, then by the text of the kind, then by the supertypes. -/
def HeadEntry.le (first second : HeadEntry) : Bool :=
  if first.qualifiedName ≠ second.qualifiedName then first.qualifiedName < second.qualifiedName
  else if first.kind ≠ second.kind then first.kind.asStr < second.kind.asStr
  else first.supers ≤ second.supers

/-- The row of a file sorts its types, so it forgets where they stand. -/
def rowOf : List HeadEntry → Option (List HeadEntry) := sortedRow HeadEntry.le

/-- What one ancestry walk reached, and whether a visited name has no declaration in the repository. -/
structure PhpAncestry where
  types : Finset Text
  leavesRepo : Bool
  deriving DecidableEq

section Ancestry

variable (paths : List Text) (state : Text → List HeadEntry)

/-- The declarations of a name are read in path order. -/
def declarationsOf (name : Text) : List HeadEntry :=
  paths.flatMap fun path => (state path).filter (·.qualifiedName = name)

def supertypeQns (name : Text) : List Text := (declarationsOf paths state name).flatMap (·.supers)

/-- Every type that the start reaches through `extends` and trait `use`, up to the limit. -/
def phpAncestry (start : List Text) : PhpAncestry :=
  let seen := walk (supertypeQns paths state) ancestryLimit start []
  { types := seen.toFinset, leavesRepo := seen.any fun name => (declarationsOf paths state name).isEmpty }

end Ancestry

/-- What a row declares for a name: the kind and the supertypes of every entry. -/
def declaredByName (row : Option (List HeadEntry)) (name : Text) : List (PhpKind × List Text) :=
  ((row.getD []).filter (·.qualifiedName = name)).map fun entry => (entry.kind, entry.supers)

/-- The types whose entries a changed file's rows move. -/
def seeds (changes : List (Text × Change HeadEntry)) : List Text :=
  Lanes.seeds HeadEntry.qualifiedName declaredByName changes

/-- Each type with each supertype that an entry of it names. -/
def up (rows : List (Text × List HeadEntry)) : List (Text × Text) :=
  rows.flatMap fun row => row.2.flatMap fun entry => entry.supers.map (entry.qualifiedName, ·)

/-- Each supertype with each type naming it. -/
def down (rows : List (Text × List HeadEntry)) : List (Text × Text) := (up rows).map Prod.swap

/-- The kinds that a name has in the rows, sorted. -/
def kinds (rows : List (Text × List HeadEntry)) (name : Text) : List Text :=
  (rows.flatMap fun row => (row.2.filter (·.qualifiedName = name)).map (·.kind.asStr)).insertionSort (· ≤ ·)

/-- How many types an unbounded ancestry reaches, and whether one of them has no row. -/
def reach (rows : List (Text × List HeadEntry)) (start : Text) : Nat × Bool :=
  let reached := closure (up rows) [start]
  (reached.length, reached.any fun name => (kinds rows name).isEmpty)

/-- What the ancestries of the seeds gained or lost. -/
def moved (seeds : List Text) (before after : List (Text × Text)) : List Text :=
  seeds.flatMap fun seed =>
    (closure before [seed]).filter (· ∉ closure after [seed]) ++
      (closure after [seed]).filter (· ∉ closure before [seed])

/-- The types at or below a seed, the moved types, the owners whose methods are touched, and the files to re-resolve
whole. -/
structure PhpRefresh where
  below : List Text
  moved : List Text
  owners : List Text
  files : List Text

def phpRefresh (sync : Sync HeadEntry) : PhpRefresh :=
  let seeds := seeds (sync.changes rowOf)
  let beforeRows := sync.beforeRows rowOf
  let afterRows := sync.afterRows rowOf
  let moved := moved seeds (up beforeRows) (up afterRows)
  let kindChanged := seeds.filter fun seed => kinds beforeRows seed ≠ kinds afterRows seed
  let below := closure (down beforeRows) seeds ++ closure (down afterRows) seeds
  let leaving := below.filter fun name => (reach beforeRows name).2 ≠ (reach afterRows name).2
  -- A walk at its limit can lose any branch, so every type of such an ancestry counts as moved.
  let cut := below.filter fun name =>
    ancestryLimit ≤ (reach beforeRows name).1 ∨ ancestryLimit ≤ (reach afterRows name).1
  let ancestries := cut.flatMap fun name => closure (up beforeRows) [name] ++ closure (up afterRows) [name]
  let whole := moved ++ leaving ++ ancestries
  { below := below
    moved := moved
    owners := kindChanged ++ ancestries
    files := ((sync.stored rowOf).filter fun row => row.2.any fun entry => entry.qualifiedName ∈ whole).map Prod.fst }

section Rows

variable {declarations entries : List HeadEntry} {entry : HeadEntry} {name target path : Text}

theorem mem_declaredByName {kind : PhpKind} {supers : List Text} :
    (kind, supers) ∈ declaredByName (rowOf declarations) name ↔ ⟨name, kind, supers⟩ ∈ declarations := by
  simp only [declaredByName, mem_map, mem_filter, decide_eq_true_eq, Prod.mk.injEq, rowOf, mem_sortedRow]
  constructor
  · rintro ⟨entry, ⟨member, rfl⟩, rfl, rfl⟩
    exact member
  · intro member
    exact ⟨⟨name, kind, supers⟩, ⟨member, rfl⟩, rfl, rfl⟩

theorem declaredByName_absent (row : Option (List HeadEntry)) (name : Text)
    (absent : name ∉ (row.getD []).map HeadEntry.qualifiedName) : declaredByName row name = [] := by
  rw [declaredByName, map_eq_nil_iff, filter_eq_nil_iff]
  intro entry member same
  exact absent (mem_map.mpr ⟨entry, member, of_decide_eq_true same⟩)

variable {rows : List (Text × List HeadEntry)} {paths : List Text} {state : Text → List HeadEntry}

theorem mem_declarationsOf : entry ∈ declarationsOf paths state name ↔
    (∃ path ∈ paths, entry ∈ state path) ∧ entry.qualifiedName = name := by
  simp only [declarationsOf, mem_flatMap, mem_filter, decide_eq_true_eq]
  constructor
  · rintro ⟨path, known, member, same⟩
    exact ⟨⟨path, known, member⟩, same⟩
  · rintro ⟨⟨path, known, member⟩, same⟩
    exact ⟨path, known, member, same⟩

/-- The links of the rows are the supertypes that the resolver reads. -/
theorem mem_up (read : RowsOf rowOf rows paths state) :
    (name, target) ∈ up rows ↔ target ∈ supertypeQns paths state name := by
  simp only [supertypeQns, List.mem_flatMap, mem_declarationsOf, ← read.exists_entry, up, List.mem_map, Prod.mk.injEq]
  constructor
  · rintro ⟨row, listed, entry, member, _, written, rfl, rfl⟩
    exact ⟨entry, ⟨⟨row, listed, member⟩, rfl⟩, written⟩
  · rintro ⟨entry, ⟨⟨row, listed, member⟩, rfl⟩, written⟩
    exact ⟨row, listed, entry, member, target, written, rfl, rfl⟩

/-- A name has no kinds exactly when nothing declares it. -/
theorem kinds_isEmpty (read : RowsOf rowOf rows paths state) :
    (kinds rows name).isEmpty = (declarationsOf paths state name).isEmpty := by
  rw [Bool.eq_iff_iff, List.isEmpty_iff, List.isEmpty_iff, List.eq_nil_iff_forall_not_mem,
    List.eq_nil_iff_forall_not_mem]
  have read_kinds (kind : Text) : kind ∈ kinds rows name ↔
    ∃ entry ∈ declarationsOf paths state name, entry.kind.asStr = kind := by
    rw [kinds, (List.perm_insertionSort _ _).mem_iff]
    simp only [List.mem_flatMap, List.mem_map, List.mem_filter, decide_eq_true_eq, mem_declarationsOf,
      ← read.exists_entry]
    constructor
    · rintro ⟨row, listed, entry, ⟨member, same⟩, rfl⟩
      exact ⟨entry, ⟨⟨row, listed, member⟩, same⟩, rfl⟩
    · rintro ⟨entry, ⟨⟨row, listed, member⟩, same⟩, rfl⟩
      exact ⟨row, listed, entry, ⟨member, same⟩, rfl⟩
  constructor
  · exact fun none entry member => none _ ((read_kinds _).mpr ⟨entry, member, rfl⟩)
  · intro none kind member
    obtain ⟨entry, declared, -⟩ := (read_kinds kind).mp member
    exact none entry declared

end Rows

section Movement

variable {sync : Sync HeadEntry} {entry : HeadEntry} {name target start : Text}
  {rows : List (Text × List HeadEntry)} {state : Text → List HeadEntry}

/-- A name that is no seed has the same declarations on both sides. -/
theorem mem_declarationsOf_of_not_seed (unseeded : name ∉ seeds (sync.changes rowOf)) :
    entry ∈ declarationsOf sync.paths sync.before name ↔ entry ∈ declarationsOf sync.paths sync.after name := by
  rw [mem_declarationsOf, mem_declarationsOf]
  have one (path : Text) (known : path ∈ sync.paths) (named : entry.qualifiedName = name) :
      entry ∈ sync.before path ↔ entry ∈ sync.after path := by
    subst named
    have same := table_of_not_seed declaredByName_absent unseeded known
    rw [show entry = ⟨entry.qualifiedName, entry.kind, entry.supers⟩ from rfl, ← mem_declaredByName, same,
      mem_declaredByName]
  constructor
  · rintro ⟨⟨path, known, member⟩, named⟩
    exact ⟨⟨path, known, (one path known named).mp member⟩, named⟩
  · rintro ⟨⟨path, known, member⟩, named⟩
    exact ⟨⟨path, known, (one path known named).mpr member⟩, named⟩

theorem mem_supertypeQns_of_not_seed (unseeded : name ∉ seeds (sync.changes rowOf)) :
    target ∈ supertypeQns sync.paths sync.before name ↔ target ∈ supertypeQns sync.paths sync.after name := by
  simp only [supertypeQns, mem_flatMap, mem_declarationsOf_of_not_seed unseeded]

theorem kept_before (place : Text) (unseeded : ¬ place ∈ seeds (sync.changes rowOf)) :
    supertypeQns sync.paths sync.before place ⊆ supertypeQns sync.paths sync.after place :=
  fun _ taken => (mem_supertypeQns_of_not_seed unseeded).mp taken

theorem kept_after (place : Text) (unseeded : ¬ place ∈ seeds (sync.changes rowOf)) :
    supertypeQns sync.paths sync.after place ⊆ supertypeQns sync.paths sync.before place :=
  fun _ taken => (mem_supertypeQns_of_not_seed unseeded).mpr taken

theorem declared_of_not_seed (unseeded : name ∉ seeds (sync.changes rowOf)) :
    (declarationsOf sync.paths sync.before name).isEmpty = (declarationsOf sync.paths sync.after name).isEmpty := by
  rw [Bool.eq_iff_iff, List.isEmpty_iff, List.isEmpty_iff, List.eq_nil_iff_forall_not_mem,
    List.eq_nil_iff_forall_not_mem]
  simp only [mem_declarationsOf_of_not_seed unseeded]

theorem reaches_up {paths : List Text} (read : RowsOf rowOf rows paths state) :
    Reaches (targets (up rows)) start target ↔ Reaches (supertypeQns paths state) start target := by
  constructor
  · exact reaches_mono fun place next taken => (mem_up read).mp (mem_targets.mp taken)
  · exact reaches_mono fun place next taken => mem_targets.mpr ((mem_up read).mpr taken)

theorem mem_closure_up {paths : List Text} (read : RowsOf rowOf rows paths state) :
    target ∈ closure (up rows) [start] ↔ Reaches (supertypeQns paths state) start target := by
  simp only [mem_closure, mem_singleton, exists_eq_left, reaches_up read]

/-- The types below the seeds are those whose ancestry holds one. -/
theorem mem_below : name ∈ (phpRefresh sync).below ↔ ∃ seed ∈ seeds (sync.changes rowOf),
    Reaches (supertypeQns sync.paths sync.before) name seed ∨
      Reaches (supertypeQns sync.paths sync.after) name seed := by
  simp only [phpRefresh, mem_append, mem_closure, down, reaches_swap, reaches_up rowsOf_before,
    reaches_up rowsOf_after]
  rw [← exists_or]
  simp only [and_or_left]

/-- What an ancestry loses, the ancestry of a seed loses too. -/
theorem mem_moved_of_lost (old : Reaches (supertypeQns sync.paths sync.before) start target)
    (lost : ¬ Reaches (supertypeQns sync.paths sync.after) start target) : target ∈ (phpRefresh sync).moved := by
  obtain ⟨seed, isSeed, -, still, beyond⟩ := (reaches_of_kept kept_before old).resolve_left lost
  refine mem_flatMap.mpr ⟨seed, isSeed, mem_append_left _ (mem_filter.mpr ⟨?_, decide_eq_true ?_⟩)⟩
  · exact (mem_closure_up rowsOf_before).mpr beyond
  · exact fun reached => lost (still.trans ((mem_closure_up rowsOf_after).mp reached))

/-- What an ancestry gains, the ancestry of a seed gains too. -/
theorem mem_moved_of_gained (new : Reaches (supertypeQns sync.paths sync.after) start target)
    (gained : ¬ Reaches (supertypeQns sync.paths sync.before) start target) : target ∈ (phpRefresh sync).moved := by
  obtain ⟨seed, isSeed, -, still, beyond⟩ := (reaches_of_kept kept_after new).resolve_left gained
  refine mem_flatMap.mpr ⟨seed, isSeed, mem_append_right _ (mem_filter.mpr ⟨?_, decide_eq_true ?_⟩)⟩
  · exact (mem_closure_up rowsOf_after).mpr beyond
  · exact fun reached => gained (still.trans ((mem_closure_up rowsOf_before).mp reached))

end Movement

section Walks

variable {rows : List (Text × List HeadEntry)} {paths : List Text} {state : Text → List HeadEntry} {start name : Text}

theorem reaches_of_mem_types (member : name ∈ (phpAncestry paths state [start]).types) :
    Reaches (supertypeQns paths state) start name := by
  obtain ⟨_, begun, reaches⟩ := (reaches_of_mem_walk (mem_toFinset.mp member)).resolve_left not_mem_nil
  exact mem_singleton.mp begun ▸ reaches

theorem card_types_le (names : List Text) (all : ∀ name, Reaches (supertypeQns paths state) start name → name ∈ names) :
    (walk (supertypeQns paths state) ancestryLimit [start] []).length ≤ names.length :=
  (subperm_of_subset (nodup_walk nodup_nil) fun _ member =>
    all _ (reaches_of_mem_types (mem_toFinset.mpr member))).length_le

/-- A walk that has no more types within reach than its limit reads them all. -/
theorem mem_types_iff {names : List Text} (short : names.length ≤ ancestryLimit)
    (all : ∀ name, Reaches (supertypeQns paths state) start name → name ∈ names) :
    name ∈ (phpAncestry paths state [start]).types ↔ Reaches (supertypeQns paths state) start name := by
  have single (name : Text) : (∃ begun ∈ [start], Reaches (supertypeQns paths state) begun name) ↔
      Reaches (supertypeQns paths state) start name := by
    simp only [mem_singleton, exists_eq_left]
  rw [phpAncestry, mem_toFinset, mem_walk_iff_of_few short fun name reached => all name ((single name).mp reached),
    single]

theorem leavesRepo_iff : (phpAncestry paths state [start]).leavesRepo = true ↔
    ∃ name ∈ (phpAncestry paths state [start]).types, (declarationsOf paths state name).isEmpty := by
  simp only [phpAncestry, any_eq_true, mem_toFinset]

variable (read : RowsOf rowOf rows paths state)
include read

theorem mem_closure_of_reaches (name : Text) (reaches : Reaches (supertypeQns paths state) start name) :
    name ∈ closure (up rows) [start] :=
  (mem_closure_up read).mpr reaches

theorem limit_le_of_card (met : (phpAncestry paths state [start]).types.card = ancestryLimit) :
    ancestryLimit ≤ (reach rows start).1 := by
  have length := card_types_le (closure (up rows) [start]) (mem_closure_of_reaches read)
  rw [phpAncestry, toFinset_card_of_nodup (nodup_walk nodup_nil)] at met
  exact met ▸ length

theorem leavesRepo_of_short (short : (reach rows start).1 < ancestryLimit) :
    (phpAncestry paths state [start]).leavesRepo = (reach rows start).2 := by
  rw [Bool.eq_iff_iff, leavesRepo_iff]
  simp only [reach, any_eq_true, kinds_isEmpty read, mem_closure_up read,
    mem_types_iff short.le (mem_closure_of_reaches read)]

end Walks

section Claims

variable (sync : Sync HeadEntry) (start : Text)

/-- No more types than the limit are within reach. -/
def Small (paths : List Text) (state : Text → List HeadEntry) : Prop :=
  ∃ names : List Text, names.length ≤ ancestryLimit ∧ ∀ name, Reaches (supertypeQns paths state) start name →
    name ∈ names

/-- A move of an ancestry is seen, its gains and losses are touched, and its files re-resolve whole where it cannot be
read. -/
def Covered : Prop :=
  let before := phpAncestry sync.paths sync.before [start]
  let after := phpAncestry sync.paths sync.after [start]
  before ≠ after →
    start ∈ (phpRefresh sync).below ∧
      (∀ name ∈ symmDiff before.types after.types, name ∈ (phpRefresh sync).moved ∨ name ∈ (phpRefresh sync).owners) ∧
      (before.leavesRepo ≠ after.leavesRepo ∨ before.types.card = ancestryLimit ∨ after.types.card = ancestryLimit →
        ∀ path ∈ sync.paths, sync.changed path = false → (∃ entry ∈ sync.after path, entry.qualifiedName = start) →
          path ∈ (phpRefresh sync).files)

/-- The lane reads the move: a seed is within reach, or no walk is cut, or every type that the walk still has room
behind keeps the order of its supertypes. -/
def Readable : Prop :=
  (∃ seed ∈ seeds (sync.changes rowOf),
    Reaches (supertypeQns sync.paths sync.before) start seed ∨
      Reaches (supertypeQns sync.paths sync.after) start seed) ∨
  (Small start sync.paths sync.before ∧ Small start sync.paths sync.after) ∨
  ∀ name, Early (supertypeQns sync.paths sync.before) [start] ancestryLimit name →
    supertypeQns sync.paths sync.before name = supertypeQns sync.paths sync.after name

variable {sync start}

section

variable (unseeded : ∀ seed ∈ seeds (sync.changes rowOf), ¬ Reaches (supertypeQns sync.paths sync.before) start seed)
include unseeded

theorem reaches_iff_of_unseeded (name : Text) : Reaches (supertypeQns sync.paths sync.before) start name ↔
      Reaches (supertypeQns sync.paths sync.after) start name := by
  constructor
  · intro reaches
    exact (reaches_of_kept kept_before reaches).resolve_right fun ⟨seed, isSeed, old, _⟩ => unseeded seed isSeed old
  · intro reaches
    exact (reaches_of_kept kept_after reaches).resolve_right fun ⟨seed, isSeed, _, old, _⟩ => unseeded seed isSeed old

/-- Over no seed, two ancestries that visit the same types are one. -/
theorem phpAncestry_of_types
    (types : (phpAncestry sync.paths sync.before [start]).types = (phpAncestry sync.paths sync.after [start]).types) :
    phpAncestry sync.paths sync.before [start] = phpAncestry sync.paths sync.after [start] := by
  have leaves : (phpAncestry sync.paths sync.before [start]).leavesRepo =
      (phpAncestry sync.paths sync.after [start]).leavesRepo := by
    rw [Bool.eq_iff_iff, leavesRepo_iff, leavesRepo_iff, ← types]
    refine exists_congr fun name => and_congr_right fun member => ?_
    have reaches := reaches_of_mem_types member
    rw [declared_of_not_seed fun isSeed => unseeded name isSeed reaches]
  exact congrArg₂ PhpAncestry.mk types leaves

/-- An ancestry over no seed stays when it is read in full. -/
theorem phpAncestry_of_small (small : Small start sync.paths sync.before) (small' : Small start sync.paths sync.after) :
    phpAncestry sync.paths sync.before [start] = phpAncestry sync.paths sync.after [start] := by
  obtain ⟨names, short, all⟩ := small
  obtain ⟨names', short', all'⟩ := small'
  apply phpAncestry_of_types unseeded
  ext name
  rw [mem_types_iff short all, mem_types_iff short' all', reaches_iff_of_unseeded unseeded]

end

theorem mem_below_of_moved (readable : Readable sync start)
    (differ : phpAncestry sync.paths sync.before [start] ≠ phpAncestry sync.paths sync.after [start]) :
    start ∈ (phpRefresh sync).below := by
  rw [mem_below]
  rcases readable with seeded | rest
  · exact seeded
  · by_contra none
    have unseeded (seed : Text) (isSeed : seed ∈ seeds (sync.changes rowOf)) :
        ¬ Reaches (supertypeQns sync.paths sync.before) start seed := fun reaches => none ⟨seed, isSeed, .inl reaches⟩
    rcases rest with ⟨small, small'⟩ | keeps
    · exact differ (phpAncestry_of_small unseeded small small')
    · refine differ (phpAncestry_of_types unseeded ?_)
      rw [phpAncestry, phpAncestry, walk_congr_early keeps]

theorem mem_owners_of_cut {name : Text} (below : start ∈ (phpRefresh sync).below)
    (cut : ancestryLimit ≤ (reach (sync.beforeRows rowOf) start).1 ∨
      ancestryLimit ≤ (reach (sync.afterRows rowOf) start).1)
    (reaches : Reaches (supertypeQns sync.paths sync.before) start name ∨
      Reaches (supertypeQns sync.paths sync.after) start name) : name ∈ (phpRefresh sync).owners := by
  refine mem_append_right _ (mem_flatMap.mpr ⟨start, mem_filter.mpr ⟨below, decide_eq_true cut⟩, ?_⟩)
  exact mem_append.mpr (reaches.imp (mem_closure_up rowsOf_before).mpr (mem_closure_up rowsOf_after).mpr)

/-- An unchanged file that declares a start of a different reach is listed. -/
theorem mem_files_of_whole (below : start ∈ (phpRefresh sync).below)
    (whole : (reach (sync.beforeRows rowOf) start).2 ≠ (reach (sync.afterRows rowOf) start).2 ∨
      ancestryLimit ≤ (reach (sync.beforeRows rowOf) start).1 ∨ ancestryLimit ≤ (reach (sync.afterRows rowOf) start).1)
    {path : Text} (known : path ∈ sync.paths) (unchanged : sync.changed path = false)
    (declares : ∃ entry ∈ sync.after path, entry.qualifiedName = start) : path ∈ (phpRefresh sync).files := by
  obtain ⟨entry, member, named⟩ := declares
  rw [sync.kept path unchanged] at member
  obtain ⟨entries, found, sorted⟩ := @exists_sortedRow _ HeadEntry.le _ _ member
  refine mem_map.mpr
    ⟨(path, entries), mem_filter.mpr ⟨Sync.mem_stored.mpr ⟨known, unchanged, found⟩, ?_⟩, rfl⟩
  refine any_eq_true.mpr ⟨entry, sorted, decide_eq_true ?_⟩
  rw [named]
  rcases whole with leaves | cut
  · exact mem_append_left _ (mem_append_right _ (mem_filter.mpr ⟨below, decide_eq_true leaves⟩))
  · refine mem_append_right _ (mem_flatMap.mpr ⟨start, mem_filter.mpr ⟨below, decide_eq_true cut⟩, ?_⟩)
    exact mem_append_left _ ((mem_closure_up rowsOf_before).mpr .refl)

/-- Below a seed, what an ancestry gained or lost is moved, or it is owned where a walk may be cut. -/
theorem mem_moved_or_owners (below : start ∈ (phpRefresh sync).below) {name : Text} (differs : name ∈
      symmDiff (phpAncestry sync.paths sync.before [start]).types (phpAncestry sync.paths sync.after [start]).types) :
    name ∈ (phpRefresh sync).moved ∨ name ∈ (phpRefresh sync).owners := by
  rw [Finset.mem_symmDiff] at differs
  by_cases cut : ancestryLimit ≤ (reach (sync.beforeRows rowOf) start).1 ∨
    ancestryLimit ≤ (reach (sync.afterRows rowOf) start).1
  · exact .inr (mem_owners_of_cut below cut
      (differs.imp (fun lost => reaches_of_mem_types lost.1) fun gained => reaches_of_mem_types gained.1))
  · rw [not_or, not_le, not_le] at cut
    rw [mem_types_iff cut.1.le (mem_closure_of_reaches rowsOf_before),
      mem_types_iff cut.2.le (mem_closure_of_reaches rowsOf_after)] at differs
    exact .inl (differs.elim (fun lost => mem_moved_of_lost lost.1 lost.2) fun gained =>
      mem_moved_of_gained gained.1 gained.2)

/-- The lane covers every move that it can read. -/
theorem php_lane_covers (sync : Sync HeadEntry) (start : Text) (readable : Readable sync start) :
    Covered sync start := by
  intro differ
  have below := mem_below_of_moved readable differ
  refine ⟨below, fun name differs => mem_moved_or_owners below differs, ?_⟩
  intro unread path known unchanged declares
  refine mem_files_of_whole below ?_ known unchanged declares
  rcases unread with leaves | met | met
  · by_contra whole
    simp only [ne_eq, not_or, not_not, not_le] at whole
    obtain ⟨same, short, short'⟩ := whole
    apply leaves
    rw [leavesRepo_of_short rowsOf_before short, leavesRepo_of_short rowsOf_after short', same]
  · exact .inr (.inl (limit_le_of_card rowsOf_before met))
  · exact .inr (.inr (limit_le_of_card rowsOf_after met))

/-- A class of one file gets a supertype. -/
def extending : Sync HeadEntry where
  paths := ["a.php".toList, "b.php".toList]
  ordered := by decide
  before path :=
    if path = "a.php".toList then [⟨"A".toList, .class_, ["B".toList]⟩]
    else if path = "b.php".toList then [⟨"B".toList, .class_, []⟩]
    else []
  after path :=
    if path = "a.php".toList then [⟨"A".toList, .class_, ["B".toList]⟩]
    else if path = "b.php".toList then [⟨"B".toList, .class_, ["C".toList]⟩]
    else []
  changed path := path = "b.php".toList
  kept path unchanged := by
    have other : path ≠ "b.php".toList := by simpa using unchanged
    simp only [if_neg other]

/-- A class that extends a changed one. -/
theorem php_lane_covers_extending : Covered extending "A".toList := by
  apply php_lane_covers
  refine .inl ⟨"B".toList, by decide +kernel, .inl (.single ?_)⟩
  decide +kernel

/-- The traits that the first of two conditional declarations uses. -/
def manyTraits : List Text := (List.range 79).map fun index => 'T' :: Nat.toDigits 10 index

/-- Two conditional declarations of one class change places. -/
def swapping : Sync HeadEntry where
  paths := ["a.php".toList]
  ordered := List.pairwise_singleton _ _
  before _ := [⟨"A".toList, .class_, manyTraits⟩, ⟨"A".toList, .class_, ["C".toList]⟩]
  after _ := [⟨"A".toList, .class_, ["C".toList]⟩, ⟨"A".toList, .class_, manyTraits⟩]
  changed _ := true
  kept _ unchanged := by cases unchanged

/-- The walk reads `C` only after the swap, and no row says so. -/
theorem swapped_declarations_are_missed : ¬ Covered swapping "A".toList := by
  intro covered
  have before : "C".toList ∉ (phpAncestry swapping.paths swapping.before ["A".toList]).types := by decide +kernel
  have after : "C".toList ∈ (phpAncestry swapping.paths swapping.after ["A".toList]).types := by decide +kernel
  have differ : phpAncestry swapping.paths swapping.before ["A".toList] ≠ phpAncestry swapping.paths swapping.after
    ["A".toList] := by
    intro same
    rw [same] at before
    exact before after
  obtain ⟨below, -⟩ := covered differ
  have none : (phpRefresh swapping).below = [] := by decide +kernel
  rw [none] at below
  cases below

end Claims

end Codegraph.Lanes.Php
