import Mathlib.Data.List.Basic
import Mathlib.Logic.Relation

/- This file gives the loop that fires rules until a pass over all of them adds nothing. -/

namespace Saturation
open List

/-- A rule adds its item once one of its premises is known. -/
structure Rule (α : Type) where
  item : α
  premises : List α

section Passes

variable {α : Type} [DecidableEq α]

def fire (known : List α) (rule : Rule α) : List α :=
  if rule.item ∉ known ∧ rule.premises.any (· ∈ known) then known ++ [rule.item] else known

def pass (rules : List (Rule α)) (known : List α) : List α := rules.foldl fire known

variable {rules : List (Rule α)} {rule : Rule α} {known : List α} {item : α}

theorem mem_fire :
    item ∈ fire known rule ↔ item ∈ known ∨ item = rule.item ∧ ∃ premise ∈ rule.premises, premise ∈ known := by
  rw [fire]
  split
  · rename_i fires
    simp only [any_eq_true, decide_eq_true_eq] at fires
    rw [mem_append, mem_singleton]
    exact or_congr_right ⟨fun same => ⟨same, fires.2⟩, fun both => both.1⟩
  · rename_i idle
    simp only [any_eq_true, decide_eq_true_eq, not_and, not_exists] at idle
    refine ⟨.inl, fun both => both.elim id ?_⟩
    rintro ⟨rfl, premise, inside, known'⟩
    by_contra fresh
    exact idle fresh premise inside known'

theorem subset_pass : known ⊆ pass rules known := by
  induction rules generalizing known with
  | nil => exact .refl _
  | cons rule rules ih => exact fun item member => ih (mem_fire.mpr (.inl member))

theorem length_fire : known.length ≤ (fire known rule).length := by
  rw [fire]
  split
  · rw [length_append]
    omega
  · exact Nat.le_refl _

theorem length_pass : known.length ≤ (pass rules known).length := by
  induction rules generalizing known with
  | nil => exact Nat.le_refl _
  | cons rule rules ih => exact Nat.le_trans length_fire ih

/-- A pass that adds nothing has no rule left to fire. -/
theorem closed_of_pass (same : (pass rules known).length = known.length) (member : rule ∈ rules)
    (ready : ∃ premise ∈ rule.premises, premise ∈ known) : rule.item ∈ known := by
  induction rules generalizing known with
  | nil => cases member
  | cons first rules ih =>
    have front : (fire known first).length = known.length := by
      have grows : (fire known first).length ≤ (pass rules (fire known first)).length := length_pass
      have before : known.length ≤ (fire known first).length := length_fire
      rw [pass, foldl_cons, ← pass] at same
      omega
    have unchanged : fire known first = known := by
      rw [fire] at front ⊢
      split at front
      · rw [length_append, length_singleton] at front
        omega
      · rename_i idle
        exact if_neg idle
    rcases mem_cons.mp member with rfl | later
    · rw [← unchanged]
      exact mem_fire.mpr (.inr ⟨rfl, ready⟩)
    · rw [pass, foldl_cons, ← pass, unchanged] at same
      exact ih same later ready

/-- The items that are still to be added. -/
def missing (rules : List (Rule α)) (known : List α) : Nat := (rules.filter fun rule => rule.item ∉ known).length

theorem pass_eq_self (old : ∀ rule ∈ rules, rule.item ∈ pass rules known → rule.item ∈ known) :
    pass rules known = known := by
  induction rules with
  | nil => rfl
  | cons first rules ih =>
    have step : pass (first :: rules) known = pass rules (fire known first) := foldl_cons ..
    have unchanged : fire known first = known := by
      rw [fire]
      split
      · rename_i fires
        refine absurd (old first (mem_cons_self ..) ?_) fires.1
        rw [step]
        refine subset_pass ?_
        rw [fire, if_pos fires]
        exact mem_append_right _ (mem_singleton_self _)
      · rfl
    rw [step, unchanged] at old ⊢
    exact ih fun rule member => old rule (mem_cons_of_mem _ member)

/-- A pass that adds something leaves less missing. -/
theorem missing_pass (grew : (pass rules known).length ≠ known.length) :
    missing rules (pass rules known) < missing rules known := by
  obtain ⟨rule, member, added, fresh⟩ : ∃ rule ∈ rules, rule.item ∈ pass rules known ∧ rule.item ∉ known := by
    by_contra none
    refine grew (congrArg length (pass_eq_self fun rule member added => ?_))
    by_contra fresh
    exact none ⟨rule, member, added, fresh⟩
  have kept : (rules.filter fun rule => rule.item ∉ pass rules known) =
      (rules.filter fun rule => rule.item ∉ known).filter fun rule => rule.item ∉ pass rules known := by
    rw [filter_filter]
    refine filter_congr fun rule _ => ?_
    by_cases after : rule.item ∈ pass rules known
    · simp [after]
    · have before : rule.item ∉ known := fun inside => after (subset_pass inside)
      simp [after, before]
  rw [missing, kept, missing]
  refine length_filter_lt_length_iff_exists.mpr ⟨rule, mem_filter.mpr ⟨member, decide_eq_true fresh⟩, ?_⟩
  simpa using added

/-- Passes one after the other, until one adds nothing. -/
def saturate (rules : List (Rule α)) (known : List α) : List α :=
  if _ : (pass rules known).length = known.length then known else saturate rules (pass rules known)
termination_by missing rules known
decreasing_by exact missing_pass ‹_›

/-- An item rests on the premises of its rules. -/
abbrev RestsOn (rules : List (Rule α)) (item premise : α) : Prop :=
  ∃ rule ∈ rules, rule.item = item ∧ premise ∈ rule.premises

/-- What a pass adds rests on what was known. -/
theorem rests_of_mem_pass (member : item ∈ pass rules known) :
    ∃ start ∈ known, Relation.ReflTransGen (RestsOn rules) item start := by
  have front (later : List (Rule α)) (sub : ∀ rule ∈ later, rule ∈ rules) (known : List α) (item : α)
    (member : item ∈ pass later known) :
      ∃ start ∈ known, Relation.ReflTransGen (RestsOn rules) item start := by
    induction later generalizing known with
    | nil => exact ⟨item, member, .refl⟩
    | cons rule later ih =>
      obtain ⟨start, here, path⟩ :=
        ih (fun rule inside => sub rule (mem_cons_of_mem _ inside)) (fire known rule) member
      rcases mem_fire.mp here with old | ⟨rfl, premise, inside, old⟩
      · exact ⟨start, old, path⟩
      · exact ⟨premise, old, path.tail ⟨rule, sub rule (mem_cons_self ..), rfl, inside⟩⟩
  exact front rules (fun _ => id) known item member

theorem subset_saturate : known ⊆ saturate rules known := by
  induction known using saturate.induct rules with
  | case1 known done =>
    rw [saturate, dif_pos done]
    exact .refl _
  | case2 known grew ih =>
    rw [saturate, dif_neg grew]
    exact List.Subset.trans subset_pass ih

theorem closed_saturate (member : rule ∈ rules) (ready : ∃ premise ∈ rule.premises, premise ∈ saturate rules known) :
    rule.item ∈ saturate rules known := by
  induction known using saturate.induct rules with
  | case1 known done =>
    rw [saturate, dif_pos done] at ready ⊢
    exact closed_of_pass done member ready
  | case2 known grew ih =>
    rw [saturate, dif_neg grew] at ready ⊢
    exact ih ready

/-- A loop that fires rules until it adds nothing finds the items that rest on what was known. -/
theorem mem_saturate_iff :
    item ∈ saturate rules known ↔ ∃ start ∈ known, Relation.ReflTransGen (RestsOn rules) item start := by
  constructor
  · intro member
    induction known using saturate.induct rules with
    | case1 known done =>
      rw [saturate, dif_pos done] at member
      exact ⟨item, member, .refl⟩
    | case2 known grew ih =>
      rw [saturate, dif_neg grew] at member
      obtain ⟨middle, inside, path⟩ := ih member
      obtain ⟨start, begun, more⟩ := rests_of_mem_pass inside
      exact ⟨start, begun, path.trans more⟩
  · rintro ⟨start, begun, path⟩
    induction path using Relation.ReflTransGen.head_induction_on with
    | refl => exact subset_saturate begun
    | head step _ ih =>
      obtain ⟨rule, member, rfl, inside⟩ := step
      exact closed_saturate member ⟨_, inside, ih⟩

end Passes

end Saturation
