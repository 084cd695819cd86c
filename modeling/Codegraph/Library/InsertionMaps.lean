import Mathlib.Data.List.Nodup
import Mathlib.Data.List.Perm.Subperm

/- This file gives maps that remember in which order their keys were inserted. -/

namespace InsertionMaps

/-- A map lists each key that has a value once. -/
structure InsertionMap (κ V : Type) where
  get : κ → Option V
  keys : List κ
  keyed : ∀ key, key ∈ keys ↔ (get key).isSome = true
  distinct : keys.Nodup

namespace InsertionMap

variable {κ V : Type} {map : InsertionMap κ V} {key other : κ} {value : V}

def empty : InsertionMap κ V where
  get _ := none
  keys := []
  keyed _ := by simp
  distinct := List.nodup_nil

def containsKey (map : InsertionMap κ V) (key : κ) : Bool := (map.get key).isSome

/-- The number of keys. -/
def len (map : InsertionMap κ V) : Nat := map.keys.length

@[simp] theorem get_empty : (empty : InsertionMap κ V).get key = none := rfl

@[simp] theorem keys_empty : (empty : InsertionMap κ V).keys = [] := rfl

theorem get_of_mem_keys (member : key ∈ map.keys) : ∃ value, map.get key = some value :=
  Option.isSome_iff_exists.mp ((map.keyed key).mp member)

/-- A map has no more keys than any list that holds them all. -/
theorem len_le {bound : List κ} (inside : ∀ key value, map.get key = some value → key ∈ bound) :
    map.len ≤ bound.length := by
  apply (List.subperm_of_subset map.distinct ?_).length_le
  intro key member
  obtain ⟨value, found⟩ := get_of_mem_keys member
  exact inside key value found

variable [DecidableEq κ]

/-- A new key goes last, and a known key keeps its place. -/
def insert (map : InsertionMap κ V) (key : κ) (value : V) : InsertionMap κ V where
  get := Function.update map.get key (some value)
  keys := if map.containsKey key then map.keys else map.keys ++ [key]
  keyed other := by
    have known := map.keyed other
    by_cases same : other = key
    · subst same
      by_cases present : (map.get other).isSome = true <;> simp [containsKey, present, known]
    · by_cases present : (map.get key).isSome = true <;> simp [containsKey, present, known, same]
  distinct := by
    split
    · exact map.distinct
    · rename_i absent
      have fresh : key ∉ map.keys := fun member => absent ((map.keyed key).mp member)
      exact List.nodup_append.mpr ⟨map.distinct, List.nodup_singleton key, fun first member second same =>
        fun equal => fresh (List.mem_singleton.mp same ▸ equal ▸ member)⟩

theorem get_insert : (map.insert key value).get other = if other = key then some value else map.get other := by
  simp only [insert, Function.update_apply]

@[simp] theorem get_insert_self : (map.insert key value).get key = some value := by rw [get_insert, if_pos rfl]

theorem get_insert_ne (differs : other ≠ key) : (map.insert key value).get other = map.get other := by
  rw [get_insert, if_neg differs]

theorem keys_insert_fresh (fresh : map.get key = none) : (map.insert key value).keys = map.keys ++ [key] := by
  simp [insert, containsKey, fresh]

end InsertionMap
end InsertionMaps
