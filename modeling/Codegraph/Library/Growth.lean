import Mathlib.Data.List.Nodup

/- This file gives a rule for lists that one stage after another extends with items of new keys. -/

namespace Growth

variable {α β κ : Type} {key : α → κ} {fresh : α → Prop} {before after later : List α} {item : α}

/-- A stage appends items that are all fresh, and it repeats no key. -/
structure Grows (key : α → κ) (fresh : α → Prop) (before after : List α) : Prop where
  more : ∃ more, after = before ++ more ∧ ∀ item ∈ more, fresh item
  distinct : (before.map key).Nodup → (after.map key).Nodup

theorem Grows.refl : Grows key fresh before before := ⟨⟨[], by simp⟩, id⟩

theorem Grows.trans (first : Grows key fresh before after) (second : Grows key fresh after later) :
    Grows key fresh before later := by
  obtain ⟨begun, same, good⟩ := first.more
  obtain ⟨rest, same', good'⟩ := second.more
  refine ⟨⟨begun ++ rest, by rw [same', same, List.append_assoc], ?_⟩,
    fun distinct => second.distinct (first.distinct distinct)⟩
  intro item member
  exact (List.mem_append.mp member).elim (good item) (good' item)

theorem Grows.concat (new : key item ∉ before.map key) (good : fresh item) :
    Grows key fresh before (before ++ [item]) := by
  refine ⟨⟨[item], rfl, by simpa using good⟩, ?_⟩
  intro distinct
  rw [List.map_append, List.map_singleton]
  refine List.nodup_append.mpr ⟨distinct, List.nodup_singleton _, ?_⟩
  rintro known member other single rfl
  exact new (List.mem_singleton.mp single ▸ member)

/-- A loop of stages is a stage. -/
theorem Grows.foldl {step : List α → β → List α} {turns : List β}
    (each : ∀ turn ∈ turns, ∀ items, Grows key fresh items (step items turn)) :
    Grows key fresh before (turns.foldl step before) := by
  induction turns generalizing before with
  | nil => exact refl
  | cons turn rest ih =>
    exact (each turn List.mem_cons_self before).trans
      (ih fun other member => each other (List.mem_cons_of_mem turn member))

theorem Grows.mem (grows : Grows key fresh before after) (member : item ∈ after) : item ∈ before ∨ fresh item := by
  obtain ⟨more, same, good⟩ := grows.more
  rw [same] at member
  exact (List.mem_append.mp member).imp_right (good item)

end Growth
