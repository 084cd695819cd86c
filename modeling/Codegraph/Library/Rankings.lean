import Mathlib.Data.List.Sort

/- This file tells which entries of a list a stable sort puts first. -/

namespace Rankings
open List

variable {α : Type} {first second : α}

theorem pair_asymm {entries : List α} (distinct : entries.Nodup) (listed : [first, second].Sublist entries) :
    ¬ [second, first].Sublist entries := by
  induction entries with
  | nil => cases listed
  | cons entry rest ih =>
    obtain ⟨new, others⟩ := nodup_cons.mp distinct
    rcases listed with _ | ⟨_, later⟩ | ⟨_, later⟩
    · intro turned
      rcases turned with _ | ⟨_, back⟩ | ⟨_, back⟩
      · exact ih others ‹_› ‹_›
      · exact new ((‹[first, second].Sublist rest›).subset (by simp))
    · intro turned
      rcases turned with _ | ⟨_, back⟩ | ⟨_, back⟩
      · exact new ((‹[second, first].Sublist rest›).subset (by simp))
      · exact new (later.subset (by simp))

theorem pair_total {entries : List α} (one : first ∈ entries) (other : second ∈ entries)
    (different : first ≠ second) : [first, second].Sublist entries ∨ [second, first].Sublist entries := by
  induction entries with
  | nil => cases one
  | cons entry rest ih =>
    rcases mem_cons.mp one with rfl | later <;> rcases mem_cons.mp other with rfl | behind
    · exact absurd rfl different
    · exact .inl ((singleton_sublist.mpr behind).cons_cons first)
    · exact .inr ((singleton_sublist.mpr later).cons_cons second)
    · exact (ih later behind).imp (.cons entry) (.cons entry)

theorem transCmp_map {β : Type} (key : α → β) (cmp : β → β → Ordering) [Std.TransCmp cmp] :
    Std.TransCmp fun first second => cmp (key first) (key second) where
  eq_swap := Std.OrientedCmp.eq_swap
  isLE_trans := Std.TransCmp.isLE_trans

theorem transCmp_then (one other : α → α → Ordering) [Std.TransCmp one] [Std.TransCmp other] :
    Std.TransCmp fun first second => (one first second).then (other first second) :=
  inferInstanceAs (Std.TransCmp (compareLex one other))

variable [DecidableEq α]

/-- The place of an entry is the number of entries before it. -/
theorem idxOf_eq_countP {before : α → α → Prop} [DecidableRel before] {entries : List α} {entry : α}
    (asymm : ∀ first ∈ entries, ∀ second ∈ entries, before first second → ¬ before second first)
    (sorted : entries.Pairwise before) (member : entry ∈ entries) :
    entries.idxOf entry = entries.countP fun other => before other entry := by
  induction entries with
  | nil => cases member
  | cons first rest ih =>
    obtain ⟨least, others⟩ := pairwise_cons.mp sorted
    by_cases same : first = entry
    · subst same
      rw [idxOf_cons_self, eq_comm, countP_eq_zero]
      intro other listed earlier
      rw [decide_eq_true_eq] at earlier
      rcases mem_cons.mp listed with rfl | later
      · exact asymm _ listed _ listed earlier earlier
      · exact asymm _ listed _ member earlier (least other later)
    · have later : entry ∈ rest := (mem_cons.mp member).resolve_left (Ne.symm same)
      rw [idxOf_cons_ne rest same, countP_cons_of_pos (by simpa using least entry later)]
      exact congrArg Nat.succ (ih (fun first one second other => asymm first (mem_cons_of_mem _ one) second
        (mem_cons_of_mem _ other)) others later)

variable (cmp : α → α → Ordering)

/-- One entry ranks before another when it is smaller, or when it is equal and listed earlier. -/
def RanksBefore (entries : List α) (first second : α) : Prop :=
  cmp first second = .lt ∨ cmp first second = .eq ∧ [first, second].Sublist entries

instance (entries : List α) : DecidableRel (RanksBefore cmp entries) :=
  fun first second =>
    inferInstanceAs (Decidable (cmp first second = .lt ∨ cmp first second = .eq ∧ [first, second].Sublist entries))

variable {cmp} [Std.TransCmp cmp] {entries : List α} {entry : α}

omit [DecidableEq α] in
/-- A sort by a comparison puts each entry behind those that rank before it. -/
theorem insertionSort_ranks (distinct : entries.Nodup) :
    (entries.insertionSort fun first second => (cmp first second).isLE).Pairwise (RanksBefore cmp entries) := by
  have swap (first second : α) : cmp first second = (cmp second first).swap := Std.OrientedCmp.eq_swap
  have total : Std.Total fun first second : α => (cmp first second).isLE = true := ⟨fun first second => by
    rw [swap second first]
    cases cmp first second <;> simp⟩
  have trans : IsTrans α fun first second : α => (cmp first second).isLE = true :=
    ⟨fun _ _ _ => Std.TransCmp.isLE_trans⟩
  have sorted := pairwise_insertionSort (fun first second : α => (cmp first second).isLE = true) entries
  have perm := perm_insertionSort (fun first second : α => (cmp first second).isLE = true) entries
  have apart : List.Pairwise (· ≠ ·) _ := perm.nodup_iff.mpr distinct
  rw [pairwise_iff_forall_sublist] at sorted apart ⊢
  intro first second listed
  rcases order : cmp first second
  · exact .inl order
  · refine .inr ⟨order, ?_⟩
    rcases pair_total (perm.mem_iff.mp (listed.subset (by simp))) (perm.mem_iff.mp (listed.subset (by simp)))
      (apart listed)
      with early | late
    · exact early
    · have equal : (cmp second first).isLE = true := by rw [swap, order]; rfl
      have kept := pair_sublist_insertionSort
        (r := fun first second : α => (cmp first second).isLE = true) equal late
      exact absurd kept (pair_asymm (perm.nodup_iff.mpr distinct) listed)
  · have below := sorted listed
    rw [order] at below
    cases below

omit [DecidableEq α] in
theorem RanksBefore.asymm (distinct : entries.Nodup) (earlier : RanksBefore cmp entries first second) :
    ¬ RanksBefore cmp entries second first := by
  intro later
  have swap : cmp first second = (cmp second first).swap := Std.OrientedCmp.eq_swap
  rcases earlier with less | ⟨equal, listed⟩
  · rw [less] at swap
    rcases later with more | ⟨equal, -⟩
    · rw [more] at swap
      cases swap
    · rw [equal] at swap
      cases swap
  · rw [equal] at swap
    rcases later with more | ⟨-, turned⟩
    · rw [more] at swap
      cases swap
    · exact pair_asymm distinct listed turned

omit [DecidableEq α] in
/-- After a sort, the order of two entries is how they rank. -/
theorem pair_sublist_iff (distinct : entries.Nodup) (one : first ∈ entries) (other : second ∈ entries) :
    [first, second].Sublist (entries.insertionSort fun first second => (cmp first second).isLE) ↔
      RanksBefore cmp entries first second := by
  have ranks {first second : α} (listed : [first, second].Sublist (entries.insertionSort fun first second =>
      (cmp first second).isLE)) : RanksBefore cmp entries first second :=
    pairwise_iff_forall_sublist.mp (insertionSort_ranks distinct) listed
  refine ⟨ranks, fun earlier => ?_⟩
  have different : first ≠ second := by
    rintro rfl
    exact earlier.asymm distinct earlier
  have perm := perm_insertionSort (fun first second : α => (cmp first second).isLE = true) entries
  rcases pair_total (perm.mem_iff.mpr one) (perm.mem_iff.mpr other) different with kept | turned
  · exact kept
  · exact absurd (ranks turned) (earlier.asymm distinct)

/-- The entries that a sort puts first are those before which few others rank. -/
theorem mem_take_insertionSort (distinct : entries.Nodup) (member : entry ∈ entries) (count : Nat) :
    entry ∈ (entries.insertionSort fun first second => (cmp first second).isLE).take count ↔
      entries.countP (fun other => RanksBefore cmp entries other entry) < count := by
  have perm := perm_insertionSort (fun first second : α => (cmp first second).isLE = true) entries
  rw [mem_take_iff_idxOf_lt (perm.mem_iff.mpr member), idxOf_eq_countP
    (fun _ _ _ _ earlier => earlier.asymm distinct) (insertionSort_ranks distinct) (perm.mem_iff.mpr member),
      perm.countP_eq]

/-- A second sort leaves the order of the first to its equal entries. -/
theorem mem_take_sort_sort {finer : α → α → Ordering} [Std.TransCmp finer] (distinct : entries.Nodup)
    (member : entry ∈ entries) (count : Nat) :
    entry ∈ ((entries.insertionSort fun first second => (finer first second).isLE).insertionSort fun first second =>
        (cmp first second).isLE).take count ↔
      entries.countP (fun other =>
        RanksBefore (fun first second => (cmp first second).then (finer first second)) entries other entry) <
          count := by
  have perm := perm_insertionSort (fun first second : α => (finer first second).isLE = true) entries
  have same (other : α) (listed : other ∈ entries) :
      RanksBefore cmp (entries.insertionSort fun first second => (finer first second).isLE) other entry ↔
        RanksBefore (fun first second => (cmp first second).then (finer first second)) entries other entry := by
    rw [RanksBefore, pair_sublist_iff distinct listed member, RanksBefore, RanksBefore]
    cases cmp other entry <;> simp
  have counted : (entries.countP fun other =>
      RanksBefore cmp (entries.insertionSort fun first second => (finer first second).isLE) other entry) =
        entries.countP fun other =>
          RanksBefore (fun first second => (cmp first second).then (finer first second)) entries other entry :=
    countP_congr fun other listed => by simpa using same other listed
  rw [mem_take_insertionSort (perm.nodup_iff.mpr distinct) (perm.mem_iff.mpr member), perm.countP_eq, counted]

end Rankings
