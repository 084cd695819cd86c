import Codegraph.Watch.Scope
import Mathlib.Data.List.Sort
import Mathlib.Data.Char
import Mathlib.Data.List.Lex

/- This file models what the head lanes of a sync share: two states of a project, the rows of their files and the
seeds. -/

namespace Codegraph.Lanes
open List

open Watch.Scope (Text)

/-- A sync finds what each file declares before and after it. The files it did not change declare the same. -/
structure Sync (D : Type) where
  paths : List Text
  ordered : paths.Pairwise (· < ·)
  before : Text → List D
  after : Text → List D
  changed : Text → Bool
  kept : ∀ path, changed path = false → after path = before path

/-- What one sync recorded of a changed file. -/
structure Change (E : Type) where
  oldRow : Option (List E)
  newRow : Option (List E)

namespace Sync

variable {D E : Type} (row : List D → Option (List E)) (sync : Sync D)

/-- The rows of the files that the sync did not change. -/
def stored : List (Text × List E) :=
  (sync.paths.filter fun path => !sync.changed path).filterMap fun path => (row (sync.before path)).map (path, ·)

def changes : List (Text × Change E) :=
  (sync.paths.filter sync.changed).map fun path => (path, ⟨row (sync.before path), row (sync.after path)⟩)

def beforeRows : List (Text × List E) :=
  sync.stored row ++ (sync.changes row).filterMap fun change => change.2.oldRow.map (change.1, ·)

def afterRows : List (Text × List E) :=
  sync.stored row ++ (sync.changes row).filterMap fun change => change.2.newRow.map (change.1, ·)

variable {row sync} {path : Text} {entries : List E}

theorem mem_stored : (path, entries) ∈ sync.stored row ↔
    path ∈ sync.paths ∧ sync.changed path = false ∧ row (sync.before path) = some entries := by
  simp only [stored, mem_filterMap, mem_filter, Option.map_eq_some_iff, Prod.mk.injEq, Bool.not_eq_true']
  constructor
  · rintro ⟨_, ⟨member, kept⟩, _, found, rfl, rfl⟩
    exact ⟨member, kept, found⟩
  · rintro ⟨member, kept, found⟩
    exact ⟨path, ⟨member, kept⟩, entries, found, rfl, rfl⟩

theorem mem_beforeRows :
    (path, entries) ∈ sync.beforeRows row ↔ path ∈ sync.paths ∧ row (sync.before path) = some entries := by
  rw [beforeRows, mem_append, mem_stored]
  simp only [changes, mem_filterMap, mem_map, mem_filter, Option.map_eq_some_iff, Prod.mk.injEq]
  constructor
  · rintro (⟨member, -, found⟩ | ⟨_, ⟨_, ⟨member, -⟩, rfl⟩, _, found, rfl, rfl⟩)
    · exact ⟨member, found⟩
    · exact ⟨member, found⟩
  · rintro ⟨member, found⟩
    by_cases changed : sync.changed path
    · exact .inr ⟨_, ⟨path, ⟨member, changed⟩, rfl⟩, entries, found, rfl, rfl⟩
    · exact .inl ⟨member, Bool.eq_false_iff.mpr changed, found⟩

/-- The rows after a sync are those of its files. -/
theorem mem_afterRows :
    (path, entries) ∈ sync.afterRows row ↔ path ∈ sync.paths ∧ row (sync.after path) = some entries := by
  rw [afterRows, mem_append, mem_stored]
  simp only [changes, mem_filterMap, mem_map, mem_filter, Option.map_eq_some_iff, Prod.mk.injEq]
  constructor
  · rintro (⟨member, kept, found⟩ | ⟨_, ⟨_, ⟨member, -⟩, rfl⟩, _, found, rfl, rfl⟩)
    · exact ⟨member, sync.kept path kept ▸ found⟩
    · exact ⟨member, found⟩
  · rintro ⟨member, found⟩
    by_cases changed : sync.changed path
    · exact .inr ⟨_, ⟨path, ⟨member, changed⟩, rfl⟩, entries, found, rfl, rfl⟩
    · have kept := Bool.eq_false_iff.mpr changed
      exact .inl ⟨member, kept, sync.kept path kept ▸ found⟩

end Sync

section Seeds

variable {D E K W : Type} [DecidableEq W] (key : E → K) (table : Option (List E) → K → List W)

/-- The keys whose entries a sync changed in some file. -/
def seeds (changes : List (Text × Change E)) : List K :=
  changes.flatMap fun change =>
    ((change.2.oldRow.getD [] ++ change.2.newRow.getD []).map key).filter fun name =>
      table change.2.oldRow name ≠ table change.2.newRow name

variable {key table} {row : List D → Option (List E)} {sync : Sync D}

/-- What a file's row holds of a name that is no seed is the same on both sides. -/
theorem table_of_not_seed (empty : ∀ row name, name ∉ (row.getD []).map key → table row name = []) {name : K}
    (unseeded : name ∉ seeds key table (sync.changes row)) {path : Text} (member : path ∈ sync.paths) :
    table (row (sync.before path)) name = table (row (sync.after path)) name := by
  by_cases changed : sync.changed path
  · by_contra different
    apply unseeded
    refine mem_flatMap.mpr ⟨(path, ⟨row (sync.before path), row (sync.after path)⟩), ?_, ?_⟩
    · exact mem_map.mpr ⟨path, mem_filter.mpr ⟨member, changed⟩, rfl⟩
    · refine mem_filter.mpr ⟨?_, decide_eq_true different⟩
      by_contra absent
      rw [map_append, mem_append, not_or] at absent
      exact different ((empty _ name absent.1).trans (empty _ name absent.2).symm)
  · rw [sync.kept path (Bool.eq_false_iff.mpr changed)]

end Seeds

section Rows

variable {D E : Type} (row : List D → Option (List E))

/-- The rows of a state hold what its files declare. -/
def RowsOf (rows : List (Text × List E)) (paths : List Text) (state : Text → List D) : Prop :=
  ∀ path entries, (path, entries) ∈ rows ↔ path ∈ paths ∧ row (state path) = some entries

variable {row} {sync : Sync D}

theorem rowsOf_before : RowsOf row (sync.beforeRows row) sync.paths sync.before := fun _ _ => Sync.mem_beforeRows

theorem rowsOf_after : RowsOf row (sync.afterRows row) sync.paths sync.after := fun _ _ => Sync.mem_afterRows

end Rows

section SortedRows

variable {E : Type} (le : E → E → Bool)

/-- A row that sorts the declarations of its file forgets where they stand. No row is kept without one. -/
def sortedRow (declarations : List E) : Option (List E) :=
  let entries := declarations.insertionSort fun first second => le first second
  if entries.isEmpty then none else some entries

variable {le} {declarations entries : List E} {entry : E} {rows : List (Text × List E)} {paths : List Text}
  {state : Text → List E}

theorem mem_of_sortedRow (found : sortedRow le declarations = some entries) :
    entry ∈ entries ↔ entry ∈ declarations := by
  rw [sortedRow] at found
  split at found
  · cases found
  · rw [← Option.some.inj found]
    exact (List.perm_insertionSort _ declarations).mem_iff

theorem exists_sortedRow (member : entry ∈ declarations) :
    ∃ entries, sortedRow le declarations = some entries ∧ entry ∈ entries := by
  have sorted : entry ∈ declarations.insertionSort fun first second => le first second :=
    (List.perm_insertionSort _ declarations).mem_iff.mpr member
  refine ⟨_, if_neg ?_, sorted⟩
  rw [List.isEmpty_iff]
  exact List.ne_nil_of_mem sorted

theorem mem_sortedRow : entry ∈ (sortedRow le declarations).getD [] ↔ entry ∈ declarations := by
  cases found : sortedRow le declarations with
  | none =>
    rw [Option.getD_none]
    refine ⟨fun none => absurd none not_mem_nil, fun member => ?_⟩
    obtain ⟨entries, some, -⟩ := @exists_sortedRow _ le _ _ member
    cases found.symm.trans some
  | some entries => exact mem_of_sortedRow found

theorem RowsOf.exists_entry (read : RowsOf (sortedRow le) rows paths state) :
    (∃ row ∈ rows, entry ∈ row.2) ↔ ∃ path ∈ paths, entry ∈ state path := by
  constructor
  · rintro ⟨⟨path, entries⟩, listed, member⟩
    obtain ⟨known, found⟩ := (read path entries).mp listed
    exact ⟨path, known, (mem_of_sortedRow found).mp member⟩
  · rintro ⟨path, known, member⟩
    obtain ⟨entries, found, sorted⟩ := @exists_sortedRow _ le _ _ member
    exact ⟨(path, entries), (read path entries).mpr ⟨known, found⟩, sorted⟩

end SortedRows

end Codegraph.Lanes
