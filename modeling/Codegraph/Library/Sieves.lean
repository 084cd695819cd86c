import Mathlib.Data.List.Basic

/- This file gives passes over a list that keep some items and count every other item under a rule. -/

namespace Sieves

variable {σ κ α ρ : Type}

/-- A pass carries what its judge remembers, the tally of the dropped items, and the kept items. -/
structure Sieve (σ κ α : Type) where
  state : σ
  tally : κ
  kept : List α

/-- A judge may change its state, and it names the rule that drops an item. -/
def Sieve.turn (judge : σ → α → σ × Option ρ) (count : κ → ρ → κ) (sieve : Sieve σ κ α) (item : α) : Sieve σ κ α :=
  match judge sieve.state item with
  | (state, some rule) => ⟨state, count sieve.tally rule, sieve.kept⟩
  | (state, none) => ⟨state, sieve.tally, sieve.kept ++ [item]⟩

def Sieve.run (judge : σ → α → σ × Option ρ) (count : κ → ρ → κ) (items : List α) (sieve : Sieve σ κ α) : Sieve σ κ α :=
  items.foldl (turn judge count) sieve

/-- A pass without a state. -/
def screen (rule : α → Option ρ) (count : κ → ρ → κ) (tally : κ) (items : List α) : Sieve Unit κ α :=
  .run (fun state item => (state, rule item)) count items ⟨(), tally, []⟩

variable {judge : σ → α → σ × Option ρ} {count : κ → ρ → κ} {size : κ → Nat} {sieve : Sieve σ κ α} {items : List α}
  {item : α}

theorem Sieve.turn_state : (sieve.turn judge count item).state = (judge sieve.state item).1 := by
  rw [turn]
  split <;> rename_i verdict <;> rw [verdict]

theorem Sieve.turn_kept : (sieve.turn judge count item).kept =
    sieve.kept ++ if (judge sieve.state item).2.isNone then [item] else [] := by
  rw [turn]
  split <;> rename_i verdict <;> simp [verdict]

/-- When every rule adds one to the size of the tally, a pass accounts for each item once. -/
theorem Sieve.run_accounts (counts : ∀ tally rule, size (count tally rule) = size tally + 1) :
    size (sieve.run judge count items).tally + (sieve.run judge count items).kept.length =
      size sieve.tally + sieve.kept.length + items.length := by
  induction items generalizing sieve with
  | nil => rfl
  | cons item rest ih =>
    have one : size (sieve.turn judge count item).tally + (sieve.turn judge count item).kept.length =
        size sieve.tally + sieve.kept.length + 1 := by
      rw [turn]
      split
      · show size (count sieve.tally _) + sieve.kept.length = _
        rw [counts]
        omega
      · show size sieve.tally + (sieve.kept ++ [item]).length = _
        rw [List.length_append, List.length_singleton]
        omega
    rw [run, List.foldl_cons, ← run, ih, one, List.length_cons]
    omega

/-- The kept items keep their order. -/
theorem Sieve.run_kept : ∃ more, more.Sublist items ∧ (sieve.run judge count items).kept = sieve.kept ++ more := by
  induction items generalizing sieve with
  | nil => exact ⟨[], .refl _, (List.append_nil _).symm⟩
  | cons item rest ih =>
    obtain ⟨more, inside, same⟩ := @ih (sieve.turn judge count item)
    rw [run, List.foldl_cons, ← run, same, turn]
    split
    · exact ⟨more, inside.cons item, rfl⟩
    · exact ⟨item :: more, inside.cons_cons item, by simp⟩

/-- What no rule of the judge changes in the tally stays. -/
theorem Sieve.run_tally (holds : κ → Prop)
    (stays : ∀ state item rule tally, (judge state item).2 = some rule → holds tally → holds (count tally rule))
    (begun : holds sieve.tally) : holds (sieve.run judge count items).tally := by
  induction items generalizing sieve with
  | nil => exact begun
  | cons item rest ih =>
    rw [run, List.foldl_cons, ← run]
    apply ih
    rw [turn]
    split
    · rename_i state rule verdict
      exact stays sieve.state item rule sieve.tally (by rw [verdict]) begun
    · exact begun

variable {rule : α → Option ρ} {tally : κ}

theorem screen_accounts (counts : ∀ tally rule, size (count tally rule) = size tally + 1) :
    size (screen rule count tally items).tally + (screen rule count tally items).kept.length =
      size tally + items.length := by
  rw [screen, Sieve.run_accounts counts, List.length_nil, Nat.add_zero]

/-- A pass without a state keeps the items that no rule names. -/
theorem screen_kept : (screen rule count tally items).kept = items.filter fun item => (rule item).isNone := by
  have grown : ∀ sieve : Sieve Unit κ α, (sieve.run (fun state item => (state, rule item)) count items).kept =
      sieve.kept ++ items.filter fun item => (rule item).isNone := by
    induction items with
    | nil => exact fun sieve => (List.append_nil _).symm
    | cons item rest ih =>
      intro sieve
      rw [Sieve.run, List.foldl_cons, ← Sieve.run, ih]
      rcases verdict : rule item with _ | name
      · simp [Sieve.turn, verdict]
      · simp [Sieve.turn, verdict]
  exact grown _

end Sieves
