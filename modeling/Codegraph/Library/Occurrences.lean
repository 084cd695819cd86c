import Mathlib.Data.Finset.Card

/- This file develops the first occurrences of the keys of a list. -/

namespace Occurrences
open List

variable {α κ : Type} [DecidableEq κ] (key : α → κ)

/-- The keys of a list stand in the order of their first items. -/
def firsts (items : List α) : List κ := (items.map key).eraseDups

def firstOf (items : List α) (wanted : κ) : Option α := items.find? fun item => key item = wanted

variable {key} {items : List α} {item : α} {wanted : κ}

@[simp] theorem firsts_nil : firsts key [] = [] := rfl

theorem mem_firsts : wanted ∈ firsts key items ↔ ∃ item ∈ items, key item = wanted := by
  rw [firsts, mem_eraseDups, mem_map]

/-- One more item adds its key when the key is new. -/
theorem firsts_concat : firsts key (items ++ [item]) =
    if key item ∈ firsts key items then firsts key items else firsts key items ++ [key item] := by
  simp only [firsts, map_append, map_cons, map_nil, eraseDups_append, mem_eraseDups]
  split
  · rename_i known
    have dropped : [key item].removeAll (items.map key) = [] := by simpa [removeAll] using known
    simp [dropped]
  · rename_i new
    have kept : [key item].removeAll (items.map key) = [key item] := by simpa [removeAll] using new
    simp [kept, eraseDups_cons]

theorem firsts_nodup : (firsts key items).Nodup := by
  induction items using reverseRecOn with
  | nil => exact nodup_nil
  | append_singleton items item ih =>
    rw [firsts_concat]
    split
    · exact ih
    · rename_i new
      refine nodup_append.mpr ⟨ih, nodup_singleton _, ?_⟩
      rintro known member other single rfl
      exact new (mem_singleton.mp single ▸ member)

/-- The first item of a known key stays. -/
theorem firstOf_concat (known : wanted ∈ firsts key items) :
    firstOf key (items ++ [item]) wanted = firstOf key items wanted := by
  obtain ⟨found, member, same⟩ := mem_firsts.mp known
  rw [firstOf, find?_append]
  rcases search : items.find? fun item => key item = wanted with _ | first
  · exact absurd same (by simpa using find?_eq_none.mp search found member)
  · simp [firstOf, search]

theorem firstOf_concat_new (new : key item ∉ firsts key items) : firstOf key (items ++ [item])
    (key item) = some item := by
  have missing : items.find? (fun other => key other = key item) = none := by
    apply find?_eq_none.mpr
    intro other member
    simp only [decide_eq_true_eq]
    exact fun same => new (mem_firsts.mpr ⟨other, member, same⟩)
  rw [firstOf, find?_append, missing]
  simp

/-- A choice by the first items of known keys stays when an item joins. -/
theorem filter_firstOf_concat (item : α) (chosen : List κ) (wants : Option α → Bool)
    (known : ∀ wanted ∈ chosen, wanted ∈ firsts key items) :
    (chosen.filter fun wanted => wants (firstOf key (items ++ [item]) wanted)) =
      chosen.filter fun wanted => wants (firstOf key items wanted) :=
  filter_congr fun wanted member => by rw [firstOf_concat (known wanted member)]

theorem firstOf_some (found : firstOf key items wanted = some item) : item ∈ items ∧ key item = wanted :=
  ⟨mem_of_find?_eq_some found, by simpa using find?_some found⟩

theorem firstOf_isSome (known : wanted ∈ firsts key items) : ∃ item, firstOf key items wanted = some item := by
  obtain ⟨item, member, same⟩ := mem_firsts.mp known
  rcases search : firstOf key items wanted with _ | first
  · exact absurd same (by simpa using find?_eq_none.mp search item member)
  · exact ⟨first, rfl⟩

/-- The keys that are listed first are as many as the keys that occur. -/
theorem firsts_length {keys : Finset κ} (exact_ : ∀ wanted, wanted ∈ keys ↔ ∃ item ∈ items, key item = wanted) :
    (firsts key items).length = keys.card := by
  have same : (firsts key items).toFinset = keys := by
    ext wanted
    rw [mem_toFinset, mem_firsts, exact_]
  rw [← same, toFinset_card_of_nodup firsts_nodup]

/-- Items that are dealt out to distinct keys are all there when every key of an item gets its share. -/
theorem deal_perm {keys : List κ} (distinct : keys.Nodup) (known : ∀ item ∈ items, key item ∈ keys) :
    (keys.flatMap fun wanted => items.filter fun item => key item = wanted).Perm items := by
  induction keys generalizing items with
  | nil =>
    have none : items = [] :=
      eq_nil_iff_forall_not_mem.mpr fun item member => absurd (known item member) not_mem_nil
    rw [none]
    exact .refl _
  | cons first rest ih =>
    obtain ⟨fresh, distinct⟩ := nodup_cons.mp distinct
    have later := @ih (items.filter fun item => ¬ key item = first) distinct fun item member => by
      obtain ⟨stored, other⟩ := mem_filter.mp member
      exact (mem_cons.mp (known item stored)).resolve_left (by simpa using other)
    have same : (rest.flatMap fun wanted => (items.filter fun item => ¬ key item = first).filter fun item =>
      key item = wanted) =
        rest.flatMap fun wanted => items.filter fun item => key item = wanted := by
      apply flatMap_congr
      intro wanted member
      rw [filter_filter]
      apply filter_congr
      intro item _
      have apart : wanted ≠ first := fun equal => fresh (equal ▸ member)
      by_cases this : key item = wanted <;> simp [this, apart]
    rw [flatMap_cons, ← same]
    exact (later.append_left _).trans
      (by simpa using filter_append_perm (fun item => decide (key item = first)) items)

end Occurrences
