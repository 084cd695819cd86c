import Mathlib.Algebra.Order.BigOperators.Group.List
import Mathlib.Data.ENat.Lattice

/- This file develops depth-limited walks that enter a place again when a nearer way reaches it. -/

namespace DepthWalk

variable {V W σ : Type} {place : V} {depth : Nat}

/-- A route adds up the costs of its steps. -/
inductive Route (step : V → Nat → V → Prop) (start : V) : Nat → V → Prop
  | here : Route step start 0 start
  | step {depth cost : Nat} {place next : V} (reached : Route step start depth place)
      (taken : step place cost next) : Route step start (depth + cost) next

/-- The distance is the least cost of a route, and an unreachable place is infinitely far. -/
noncomputable def distance (step : V → Nat → V → Prop) (start place : V) : ℕ∞ :=
  ⨅ depth : Nat, ⨅ _ : Route step start depth place, (depth : ℕ∞)

theorem distance_lt_iff {step : V → Nat → V → Prop} {start : V} {limit : Nat} :
    distance step start place < limit ↔ ∃ depth < limit, Route step start depth place := by
  simp only [distance, iInf_lt_iff, Nat.cast_lt, exists_prop]
  constructor
  · intro ⟨depth, route, below⟩
    exact ⟨depth, below, route⟩
  · intro ⟨depth, below, route⟩
    exact ⟨depth, route, below⟩

/-- A place is entered only when the new depth is nearer than the recorded one. -/
def Nearer (depths : V → Option Nat) (place : V) (depth : Nat) : Prop :=
  ∀ recorded, depths place = some recorded → depth < recorded

/-- A record covers a place when it is at most as deep. -/
def Covers (depths : V → Option Nat) (place : V) (depth : Nat) : Prop :=
  ∃ recorded ≤ depth, depths place = some recorded

theorem covers_of_not_nearer {depths : V → Option Nat}
    (known : ¬ Nearer depths place depth) : Covers depths place depth := by
  simp only [Nearer, not_forall, not_lt] at known
  obtain ⟨recorded, found, below⟩ := known
  exact ⟨recorded, below, found⟩

theorem Covers.mono {depths : V → Option Nat} {limit : Nat} (covers : Covers depths place depth)
    (below : depth ≤ limit) : Covers depths place limit := by
  obtain ⟨recorded, within, found⟩ := covers
  exact ⟨recorded, within.trans below, found⟩

variable (step : V → Nat → V → Prop) (limit : Nat)

/-- A relaxed place covers each of its steps within the limit. -/
def Relaxed (depths : V → Option Nat) (place : V) : Prop :=
  ∀ depth cost next, depths place = some depth → step place cost next → depth + cost < limit →
    Covers depths next (depth + cost)

variable (depths : σ → V → Option Nat) (holds : σ → W → Prop) (owed : V → W → Prop)

/-- A part of a walk lowers depths and keeps its facts, and every place whose depth it changed is relaxed
and has the facts it owes. -/
structure Progress (before after : σ) : Prop where
  lowers : ∀ place depth, depths before place = some depth → Covers (depths after) place depth
  keeps : ∀ fact, holds before fact → holds after fact
  relaxes : ∀ place, depths after place ≠ depths before place → Relaxed step limit (depths after) place
  finishes : ∀ place, depths after place ≠ depths before place → ∀ fact, owed place fact → holds after fact

variable {step limit depths holds owed} {before middle after : σ}

theorem Progress.covers (progress : Progress step limit depths holds owed before after)
    (covered : Covers (depths before) place depth) : Covers (depths after) place depth := by
  obtain ⟨recorded, within, found⟩ := covered
  exact (progress.lowers place recorded found).mono within

theorem Progress.refl (state : σ) : Progress step limit depths holds owed state state :=
  ⟨fun _ depth found => ⟨depth, le_rfl, found⟩, fun _ done => done, fun _ changed => absurd rfl changed,
    fun _ changed => absurd rfl changed⟩

/-- A step that leaves the depths alone may establish more facts. -/
theorem Progress.of_eq (same : depths after = depths before) (keeps : ∀ fact, holds before fact → holds after fact) :
    Progress step limit depths holds owed before after :=
  ⟨fun _ depth found => ⟨depth, le_rfl, by rw [same]; exact found⟩, keeps,
    fun _ changed => absurd (by rw [same]) changed, fun _ changed => absurd (by rw [same]) changed⟩

/-- A place that keeps its depth stays relaxed while the others are lowered. -/
theorem Progress.relaxed (progress : Progress step limit depths holds owed before after)
    (same : depths after place = depths before place) (relaxed : Relaxed step limit (depths before) place) :
    Relaxed step limit (depths after) place := by
  intro depth cost next found taken within
  rw [same] at found
  exact progress.covers (relaxed depth cost next found taken within)

/-- Progress adds up. -/
theorem Progress.trans (first : Progress step limit depths holds owed before middle)
    (second : Progress step limit depths holds owed middle after) :
    Progress step limit depths holds owed before after := by
  refine ⟨?_, fun fact held => second.keeps fact (first.keeps fact held), ?_, ?_⟩
  · intro place depth found
    exact second.covers (first.lowers place depth found)
  · intro place changed
    by_cases same : depths after place = depths middle place
    · exact second.relaxed same (first.relaxes place (same ▸ changed))
    · exact second.relaxes place same
  · intro place changed fact due
    by_cases same : depths after place = depths middle place
    · exact second.keeps fact (first.finishes place (same ▸ changed) fact due)
    · exact second.finishes place same fact due

/-- Entering a place is progress once all its steps are covered and all its facts hold. -/
theorem Progress.enter [DecidableEq V]
    (rest : Progress step limit depths holds owed middle after) (nearer : Nearer (depths before) place depth)
    (entered : depths middle = Function.update (depths before) place (some depth))
    (kept : ∀ fact, holds before fact → holds middle fact)
    (covered : ∀ cost next, step place cost next → depth + cost < limit → Covers (depths after) next (depth + cost))
    (done : ∀ fact, owed place fact → holds after fact) : Progress step limit depths holds owed before after := by
  have inside (other : V) (changed : depths after other ≠ depths before other)
      (same : depths after other = depths middle other) : other = place := by
    by_contra different
    rw [same, entered, Function.update_of_ne different] at changed
    exact changed rfl
  refine ⟨?_, fun fact held => rest.keeps fact (kept fact held), ?_, ?_⟩
  · intro other recorded found
    by_cases same : other = place
    · subst same
      have covers : Covers (depths middle) other depth := ⟨depth, le_rfl, by rw [entered, Function.update_self]⟩
      exact (rest.covers covers).mono (nearer recorded found).le
    · exact rest.lowers other recorded (by rw [entered, Function.update_of_ne same]; exact found)
  · intro other changed
    by_cases same : depths after other = depths middle other
    · have here := inside other changed same
      subst here
      rw [entered, Function.update_self] at same
      intro found cost next held taken within
      rw [same, Option.some.injEq] at held
      subst held
      exact covered cost next taken within
    · exact rest.relaxes other same
  · intro other changed
    by_cases same : depths after other = depths middle other
    · have here := inside other changed same
      subst here
      exact done
    · exact rest.finishes other same

/-- A loop makes progress, and what it settles for one item stays settled. -/
theorem Progress.foldl {item : Type} (body : σ → item → σ) (settled : σ → item → Prop) (items : List item)
    (stays : ∀ before after entry, Progress step limit depths holds owed before after → settled before entry →
      settled after entry)
    (each : ∀ state, ∀ entry ∈ items, Progress step limit depths holds owed state (body state entry) ∧
      settled (body state entry) entry) (state : σ) :
    Progress step limit depths holds owed state (items.foldl body state) ∧
      ∀ entry ∈ items, settled (items.foldl body state) entry := by
  induction items generalizing state with
  | nil => exact ⟨.refl _, fun entry member => absurd member List.not_mem_nil⟩
  | cons head rest ih =>
    obtain ⟨progress, done⟩ := each state head List.mem_cons_self
    obtain ⟨further, others⟩ := ih (fun reached entry member => each reached entry (List.mem_cons_of_mem _ member))
      (body state head)
    refine ⟨progress.trans further, ?_⟩
    intro entry member
    rcases List.mem_cons.mp member with rfl | later
    · exact stays _ _ _ further done
    · exact others entry later

/-- A loop that may run out of fuel ends under an invariant of the items that are left. -/
theorem Progress.foldlM {item : Type} (body : σ → item → Option σ) (inside : List item → σ → Prop)
    (settled : σ → item → Prop) (items : List item)
    (stays : ∀ before after entry, Progress step limit depths holds owed before after → settled before entry →
      settled after entry) (each : ∀ state entry rest, entry ∈ items → inside (entry :: rest) state → ∃ after,
      body state entry = some after ∧ inside rest after ∧ Progress step limit depths holds owed state after ∧
      settled after entry) (state : σ) (start : inside items state) :
    ∃ after, items.foldlM body state = some after ∧ inside [] after ∧
      Progress step limit depths holds owed state after ∧ ∀ entry ∈ items, settled after entry := by
  induction items generalizing state with
  | nil => exact ⟨state, rfl, start, .refl _, fun entry member => absurd member List.not_mem_nil⟩
  | cons head rest ih =>
    obtain ⟨next, ran, kept, progress, done⟩ := each state head rest List.mem_cons_self start
    obtain ⟨after, finished, final, further, others⟩ :=
      ih (fun reached entry later member => each reached entry later (List.mem_cons_of_mem _ member)) next kept
    refine ⟨after, ?_, final, progress.trans further, ?_⟩
    · rw [List.foldlM_cons, ran]
      exact finished
    · intro entry member
      rcases List.mem_cons.mp member with rfl | later
      · exact stays _ _ _ further done
      · exact others entry later

/-- The slack bounds how often places can still be entered within the limit. -/
def slack (limit : Nat) (places : List V) (record : V → Option Nat) : Nat :=
  (places.map fun place => min limit ((record place).getD limit)).sum

theorem slack_le (limit : Nat) (places : List V) (record : V → Option Nat) :
    slack limit places record ≤ places.length * limit := by
  have each : ∀ term ∈ places.map fun place => min limit ((record place).getD limit), term ≤ limit := by
    intro term member
    obtain ⟨place, -, rfl⟩ := List.mem_map.mp member
    exact min_le_left _ _
  simpa [slack] using List.sum_le_card_nsmul _ limit each

/-- Progress never adds slack. -/
theorem Progress.slack_le (progress : Progress step limit depths holds owed before after) (places : List V) :
    slack limit places (depths after) ≤ slack limit places (depths before) := by
  apply List.sum_le_sum
  intro place _
  rcases found : depths before place with _ | depth
  · exact (min_le_left _ _).trans (by simp)
  · obtain ⟨recorded, below, lowered⟩ := progress.lowers place depth found
    rw [lowered]
    exact min_le_min le_rfl below

/-- Entering a listed place uses up slack. -/
theorem slack_enter [DecidableEq V] {places : List V} {record : V → Option Nat}
    (listed : place ∈ places) (nearer : Nearer record place depth) (within : depth < limit) :
    slack limit places (Function.update record place (some depth)) < slack limit places record := by
  apply List.sum_lt_sum
  · intro other _
    by_cases same : other = place
    · subst same
      rw [Function.update_self]
      rcases found : record other with _ | recorded
      · exact min_le_min le_rfl within.le
      · exact min_le_min le_rfl (nearer recorded found).le
    · rw [Function.update_of_ne same]
  · refine ⟨place, listed, ?_⟩
    rw [Function.update_self]
    rcases found : record place with _ | recorded
    · simpa using within
    · have below := nearer recorded found
      simp only [Option.getD_some]
      omega

/-- A walk from an empty record covers every place within the limit. -/
theorem Progress.complete {start : V}
    (progress : Progress step limit depths holds owed before after) (fresh : ∀ place, depths before place = none)
    (begun : 0 < limit → Covers (depths after) start 0) (route : Route step start depth place)
    (within : depth < limit) : Covers (depths after) place depth := by
  induction route with
  | here => exact begun within
  | @step depth cost place next reached taken ih =>
    obtain ⟨recorded, below, found⟩ := ih (by omega)
    have relaxed := progress.relaxes place (by rw [found, fresh]; simp)
    exact (relaxed recorded cost next found taken (by omega)).mono (by omega)

/-- Every recorded depth is the cost of a route within the limit. -/
def Routed (step : V → Nat → V → Prop) (limit : Nat) (start : V) (depths : V → Option Nat) : Prop :=
  ∀ place depth, depths place = some depth → Route step start depth place ∧ depth < limit

theorem Routed.enter [DecidableEq V] {start : V} {record : V → Option Nat}
    (routed : Routed step limit start record) (route : Route step start depth place) (within : depth < limit) :
    Routed step limit start (Function.update record place (some depth)) := by
  intro other recorded found
  by_cases same : other = place
  · subst same
    rw [Function.update_self, Option.some.injEq] at found
    subst found
    exact ⟨route, within⟩
  · rw [Function.update_of_ne same] at found
    exact routed other recorded found

/-- The recorded places of a finished walk are those within the limit. -/
theorem Progress.recorded_iff {start place : V} (progress : Progress step limit depths holds owed before after)
    (fresh : ∀ place, depths before place = none) (begun : 0 < limit → Covers (depths after) start 0)
    (routed : Routed step limit start (depths after)) :
    depths after place ≠ none ↔ distance step start place < limit := by
  rw [distance_lt_iff]
  constructor
  · intro recorded
    obtain ⟨depth, found⟩ := Option.ne_none_iff_exists'.mp recorded
    obtain ⟨route, within⟩ := routed place depth found
    exact ⟨depth, within, route⟩
  · intro ⟨depth, within, route⟩ missing
    obtain ⟨recorded, -, found⟩ := progress.complete fresh begun route within
    rw [missing] at found
    cases found

end DepthWalk
