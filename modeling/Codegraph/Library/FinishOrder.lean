import Mathlib.Data.List.Chain
import Mathlib.Data.List.Nodup

/- This file develops the order in which a depth-first search finishes places, and what it says about cycles. -/

namespace FinishOrder
open List

variable {V : Type} (step : V → V → Prop)

/-- The latest place comes first, and every step from a place leads to an earlier one. -/
def Ordered : List V → Prop
  | [] => True
  | place :: earlier => (∀ next, step place next → next ∈ earlier) ∧ Ordered earlier

variable {step} {order : List V} {place next : V}

theorem Ordered.closed (ordered : Ordered step order) (member : place ∈ order)
    (reaches : Relation.ReflTransGen step place next) : next ∈ order := by
  induction reaches with
  | refl => exact member
  | @tail before after _ taken ih =>
    clear member
    induction order with
    | nil => cases ih
    | cons head earlier rest =>
      rcases mem_cons.mp ih with rfl | later
      · exact mem_cons_of_mem _ (ordered.1 after taken)
      · exact mem_cons_of_mem _ (rest ordered.2 later)

/-- No place of a finish order lies on a cycle. -/
theorem Ordered.acyclic (ordered : Ordered step order) (distinct : order.Nodup) (member : place ∈ order) :
    ¬ Relation.TransGen step place place := by
  induction order with
  | nil => cases member
  | cons head earlier ih =>
    rcases mem_cons.mp member with rfl | later
    · intro cycle
      obtain ⟨next, taken, back⟩ := Relation.TransGen.head'_iff.mp cycle
      have returned := ordered.2.closed (ordered.1 next taken) back
      exact (nodup_cons.mp distinct).1 returned
    · exact ih ordered.2 (nodup_cons.mp distinct).2 later

/-- A simple cycle steps from each place to the next and from the last to the first, and repeats no place. -/
structure SimpleCycle (step : V → V → Prop) (cycle : List V) : Prop where
  distinct : cycle.Nodup
  chained : cycle.IsChain step
  closes : ∃ last first, cycle.getLast? = some last ∧ cycle.head? = some first ∧ step last first

/-- A chain leads from its first place to its last. -/
theorem chain_reaches {first last : V} (chained : order.IsChain step) (head : order.head? = some first)
    (ends : order.getLast? = some last) : Relation.ReflTransGen step first last := by
  induction order generalizing first with
  | nil => cases head
  | cons place rest ih =>
    cases head
    rcases rest with _ | ⟨next, rest⟩
    · cases ends
      exact .refl
    · have taken := (isChain_cons_cons.mp chained).1
      exact .head taken (ih (isChain_cons_cons.mp chained).2 rfl (by simpa using ends))

theorem SimpleCycle.returns {cycle : List V} (simple : SimpleCycle step cycle) :
    ∃ place ∈ cycle, Relation.TransGen step place place := by
  obtain ⟨last, first, ends, head, taken⟩ := simple.closes
  have reaches := chain_reaches simple.chained head ends
  exact ⟨last, mem_of_getLast? ends, .head' taken reaches⟩

/-- A chain that ends with a step back to one of its places closes a simple cycle there. -/
theorem SimpleCycle.of_drop {path : List V} {start : Nat} {last : V} (distinct : path.Nodup)
    (chained : path.IsChain step) (ends : path.getLast? = some last) (found : path[start]? = some place)
    (taken : step last place) : SimpleCycle step (path.drop start) := by
  refine ⟨distinct.sublist (drop_sublist _ _), chained.suffix (drop_suffix _ _), last, place, ?_, ?_, taken⟩
  · obtain ⟨within, -⟩ := List.getElem?_eq_some_iff.mp found
    rw [getLast?_drop, if_neg (by omega), ends]
  · rw [head?_drop, found]

end FinishOrder
