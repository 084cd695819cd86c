import Mathlib.Data.List.Basic

/- This file gives a rule for loops that settle every entry of a list. -/

namespace Folds

variable {σ α : Type}

/-- When each turn keeps the invariant and all that is settled, and it settles its own entry, the loop settles every
entry. -/
theorem foldl_settles (body : σ → α → σ) (holds : σ → Prop) (settled : α → σ → Prop) (items : List α)
    (stays : ∀ entry ∈ items, ∀ state, holds state → ∀ other, settled other state → settled other (body state entry))
    (each : ∀ entry ∈ items, ∀ state, holds state → holds (body state entry) ∧ settled entry (body state entry))
    {state : σ} (begun : holds state) :
    holds (items.foldl body state) ∧ (∀ other, settled other state → settled other (items.foldl body state)) ∧
      ∀ entry ∈ items, settled entry (items.foldl body state) := by
  induction items generalizing state with
  | nil => exact ⟨begun, fun _ done => done, fun _ member => by cases member⟩
  | cons first rest ih =>
    obtain ⟨held, done⟩ := each first List.mem_cons_self state begun
    obtain ⟨last, kept, all⟩ := ih (fun entry member => stays entry (List.mem_cons_of_mem _ member))
      (fun entry member => each entry (List.mem_cons_of_mem _ member)) held
    refine ⟨last, fun other before => kept other (stays first List.mem_cons_self state begun other before), ?_⟩
    intro entry member
    rcases List.mem_cons.mp member with rfl | later
    · exact kept _ done
    · exact all entry later

end Folds
