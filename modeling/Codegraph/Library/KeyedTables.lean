import Mathlib.Data.Multiset.Filter

/- This file gives two tables that share one automatic key and pass rows from the first to the second. -/

namespace KeyedTables
open scoped List

variable {α : Type}

structure Keyed (α : Type) where
  id : Int
  value : α
  deriving DecidableEq

/-- New rows enter the pending table under the next key, and the settled table receives them later. -/
structure Tables (α : Type) where
  pending : List (Keyed α)
  settled : List (Keyed α)
  next : Int
  deriving DecidableEq

namespace Tables

variable {tables : Tables α}

def empty : Tables α := ⟨[], [], 1⟩

def rows (tables : Tables α) : List (Keyed α) := tables.pending ++ tables.settled

/-- The contents forget the keys and the table of each row. -/
def contents (tables : Tables α) : Multiset α := (tables.rows.map Keyed.value : List α)

def add (tables : Tables α) (value : α) : Tables α :=
  { tables with pending := tables.pending ++ [⟨tables.next, value⟩], next := tables.next + 1 }

def addAll (tables : Tables α) (values : List α) : Tables α := values.foldl add tables

/-- A row whose key is taken is dropped. -/
def insertOrIgnore (table : List (Keyed α)) (row : Keyed α) : List (Keyed α) :=
  if row.id ∈ table.map Keyed.id then table else table ++ [row]

/-- The rows under the given keys are copied to the settled table and then deleted from the pending one. -/
def settle (tables : Tables α) (ids : List Int) : Tables α :=
  { tables with
    pending := tables.pending.filter (fun row => row.id ∉ ids)
    settled := (tables.pending.filter (fun row => row.id ∈ ids)).foldl insertOrIgnore tables.settled }

/-- A deletion removes the matching rows of both tables. -/
def erase (tables : Tables α) (matching : α → Bool) : Tables α :=
  { tables with
    pending := tables.pending.filter (fun row => !matching row.value)
    settled := tables.settled.filter (fun row => !matching row.value) }

/-- Sound tables share no key, and every key is older than the next one. -/
structure Sound (tables : Tables α) : Prop where
  distinct : (tables.rows.map Keyed.id).Nodup
  older : ∀ row ∈ tables.rows, row.id < tables.next

theorem Sound.empty : (empty : Tables α).Sound :=
  ⟨List.nodup_nil, fun _ member => by cases member⟩

/-- No key stands in both tables. -/
theorem Sound.disjoint (sound : tables.Sound) :
    ∀ first ∈ tables.pending, ∀ second ∈ tables.settled, first.id ≠ second.id := by
  intro first pending second settled same
  have distinct := sound.distinct
  rw [rows, List.map_append, List.nodup_append] at distinct
  exact distinct.2.2 _ (List.mem_map_of_mem pending) _ (List.mem_map_of_mem settled) same

theorem rows_add (tables : Tables α) (value : α) :
    (tables.add value).rows.Perm (⟨tables.next, value⟩ :: tables.rows) := by
  simp only [rows, add, List.append_assoc, List.singleton_append]
  exact List.perm_middle

theorem Sound.add (sound : tables.Sound) (value : α) : (tables.add value).Sound := by
  have perm := rows_add tables value
  constructor
  · apply (perm.map Keyed.id).nodup_iff.mpr
    rw [List.map_cons, List.nodup_cons]
    refine ⟨?_, sound.distinct⟩
    intro taken
    obtain ⟨row, member, same⟩ := List.mem_map.mp taken
    have older := sound.older row member
    change row.id = tables.next at same
    omega
  · intro row member
    change row.id < tables.next + 1
    rcases List.mem_cons.mp (perm.mem_iff.mp member) with rfl | earlier
    · exact Int.lt_succ _
    · have older := sound.older row earlier
      omega

theorem contents_add (tables : Tables α) (value : α) : (tables.add value).contents = value ::ₘ tables.contents := by
  have perm := (rows_add tables value).map Keyed.value
  rw [contents, contents, Multiset.cons_coe]
  exact Multiset.coe_eq_coe.mpr perm

theorem Sound.addAll (sound : tables.Sound) (values : List α) : (tables.addAll values).Sound := by
  induction values generalizing tables with
  | nil => exact sound
  | cons value rest ih => exact ih (sound.add value)

/-- Added values join the contents. -/
theorem contents_addAll (tables : Tables α) (values : List α) :
    (tables.addAll values).contents = tables.contents + (values : Multiset α) := by
  induction values generalizing tables with
  | nil => simp [addAll]
  | cons value rest ih =>
    change ((tables.add value).addAll rest).contents = _
    rw [ih, contents_add, ← Multiset.cons_coe, Multiset.cons_add, Multiset.add_cons]

/-- Rows under free keys all arrive. -/
theorem foldl_insertOrIgnore {moved table : List (Keyed α)} (distinct : (moved.map Keyed.id).Nodup)
    (free : ∀ row ∈ moved, row.id ∉ table.map Keyed.id) : moved.foldl insertOrIgnore table = table ++ moved := by
  induction moved generalizing table with
  | nil => simp
  | cons row rest ih =>
    rw [List.map_cons, List.nodup_cons] at distinct
    have vacant : row.id ∉ table.map Keyed.id := free row List.mem_cons_self
    have inserted : insertOrIgnore table row = table ++ [row] := if_neg vacant
    rw [List.foldl_cons, inserted, ih distinct.2, List.append_assoc, List.singleton_append]
    intro later member taken
    rw [List.map_append, List.mem_append] at taken
    rcases taken with taken | taken
    · exact free later (List.mem_cons_of_mem _ member) taken
    · rw [List.map_singleton, List.mem_singleton] at taken
      exact distinct.1 (taken ▸ List.mem_map_of_mem member)

/-- Settling passes each row whole. -/
theorem rows_settle (sound : tables.Sound) (ids : List Int) : (tables.settle ids).rows.Perm tables.rows := by
  have distinct : (tables.pending.map Keyed.id).Nodup := by
    have all := sound.distinct
    rw [rows, List.map_append, List.nodup_append] at all
    exact all.1
  have moved : (tables.pending.filter (fun row => row.id ∈ ids)).foldl insertOrIgnore tables.settled =
      tables.settled ++ tables.pending.filter (fun row => row.id ∈ ids) := by
    apply foldl_insertOrIgnore
    · exact distinct.sublist (List.filter_sublist.map _)
    · intro row member taken
      obtain ⟨other, settled, same⟩ := List.mem_map.mp taken
      exact sound.disjoint row (List.mem_filter.mp member).1 other settled same.symm
  have split := List.filter_append_perm (fun row : Keyed α => decide (row.id ∈ ids)) tables.pending
  simp only [rows, settle, moved]
  calc tables.pending.filter (fun row => row.id ∉ ids) ++
        (tables.settled ++ tables.pending.filter (fun row => row.id ∈ ids))
      ~ tables.pending.filter (fun row => row.id ∉ ids) ++
        (tables.pending.filter (fun row => row.id ∈ ids) ++ tables.settled) :=
        List.Perm.append_left _ List.perm_append_comm
    _ = tables.pending.filter (fun row => row.id ∉ ids) ++
        tables.pending.filter (fun row => row.id ∈ ids) ++ tables.settled := (List.append_assoc _ _ _).symm
    _ ~ tables.pending ++ tables.settled := by
        apply List.Perm.append_right
        apply List.perm_append_comm.trans
        simpa using split

theorem Sound.settle (sound : tables.Sound) (ids : List Int) : (tables.settle ids).Sound := by
  have perm := rows_settle sound ids
  constructor
  · exact (perm.map Keyed.id).nodup_iff.mpr sound.distinct
  · exact fun row member => sound.older row (perm.mem_iff.mp member)

theorem contents_settle (sound : tables.Sound) (ids : List Int) : (tables.settle ids).contents = tables.contents :=
  Multiset.coe_eq_coe.mpr ((rows_settle sound ids).map Keyed.value)

theorem rows_erase (tables : Tables α) (matching : α → Bool) :
    (tables.erase matching).rows = tables.rows.filter (fun row => !matching row.value) := by
  simp only [rows, erase, List.filter_append]

theorem Sound.erase (sound : tables.Sound) (matching : α → Bool) : (tables.erase matching).Sound := by
  constructor
  · rw [rows_erase]
    exact sound.distinct.sublist (List.filter_sublist.map _)
  · intro row member
    rw [rows_erase] at member
    exact sound.older row (List.mem_filter.mp member).1

/-- A deletion keeps exactly the contents that do not match. -/
theorem contents_erase (tables : Tables α) (matching : α → Bool) :
    (tables.erase matching).contents = tables.contents.filter (fun value => matching value = false) := by
  rw [contents, rows_erase, contents, Multiset.filter_coe, List.filter_map]
  congr 2
  apply List.filter_congr
  intro row _
  simp

/-- Deleting the matching contents and adding them again conserves the contents. -/
theorem contents_requeue (tables : Tables α) (matching : α → Bool) (values : List α)
    (same : (values : Multiset α) = tables.contents.filter (fun value => matching value = true)) :
    ((tables.erase matching).addAll values).contents = tables.contents := by
  rw [contents_addAll, contents_erase, same, Multiset.add_comm]
  have split := Multiset.filter_add_not (fun value => matching value = true) tables.contents
  simpa only [Bool.not_eq_true] using split

end Tables
end KeyedTables
