import Mathlib.Data.List.Perm.Basic

/- This file gives keyed tables and the programs that answer from tables whose values they can also compute. -/

namespace Caching
open List

variable {κ α β σ μ : Type}

section Tables
variable [DecidableEq κ] {valueOf : β → α} {items : List β}

/-- An insertion replaces the value of its key. -/
def put (key : κ) (value : α) (table : List (κ × α)) : List (κ × α) :=
  (key, value) :: table.filter fun entry => entry.1 ≠ key

def drop (key : κ) (table : List (κ × α)) : List (κ × α) := table.filter fun entry => entry.1 ≠ key

/-- A value joins the list of its key. -/
def push (key : κ) (value : α) (table : List (κ × List α)) : List (κ × List α) :=
  put key ((table.lookup key).getD [] ++ [value]) table

def group (key : α → κ) (values : List α) : List (κ × List α) :=
  values.foldl (fun table value => push (key value) value table) []

/-- Later items replace the values of earlier ones. -/
def index (key : β → κ) (value : β → α) (items : List β) : List (κ × α) :=
  items.foldl (fun table item => put (key item) (value item) table) []

/-- Every value of the table fits its key. -/
def Fits (good : κ → α → Prop) (table : List (κ × α)) : Prop := ∀ key value, (key, value) ∈ table → good key value

variable {key : κ} {value : α} {table : List (κ × α)} {good : κ → α → Prop}

theorem mem_of_lookup (found : table.lookup key = some value) : (key, value) ∈ table := by
  obtain ⟨before, after, parts, _⟩ := lookup_eq_some_iff.mp found
  rw [parts]
  simp

theorem lookup_iff_mem (distinct : (table.map Prod.fst).Nodup) :
    table.lookup key = some value ↔ (key, value) ∈ table := by
  refine ⟨mem_of_lookup, fun member => ?_⟩
  obtain ⟨before, after, rfl⟩ := append_of_mem member
  refine lookup_eq_some_iff.mpr ⟨before, after, rfl, fun entry inside => ?_⟩
  rw [map_append, map_cons, nodup_append] at distinct
  exact bne_iff_ne.mpr fun same =>
    distinct.2.2 entry.1 (mem_map_of_mem inside) key (mem_cons_self ..) same.symm

theorem lookup_drop_other {other : κ} (different : other ≠ key) :
    (drop key table).lookup other = table.lookup other := by
  induction table with
  | nil => rfl
  | cons entry rest ih =>
    rw [drop] at ih ⊢
    by_cases same : entry.1 = key
    · have apart : (other == entry.1) = false := by simpa [same] using different
      rw [filter_cons_of_neg (by simpa using same), ih, lookup_cons, apart]
    · rw [filter_cons_of_pos (by simpa using same), lookup_cons, lookup_cons, ih]

theorem lookup_drop_self : (drop key table).lookup key = none := by
  rw [lookup_eq_none_iff]
  intro entry member
  have apart : entry.1 ≠ key := of_decide_eq_true (mem_filter.mp member).2
  exact bne_iff_ne.mpr fun same => apart same.symm

theorem lookup_put (other : κ) :
    (put key value table).lookup other = if other = key then some value else table.lookup other := by
  show ((key, value) :: drop key table).lookup other = _
  by_cases same : other = key
  · simp [same]
  · have apart : (other == key) = false := by simpa using same
    rw [lookup_cons, apart, if_neg same]
    exact lookup_drop_other same

/-- Of two insertions for one key the second one counts. -/
theorem put_put (first second : α) : put key second (put key first table) = put key second table := by
  simp [put]

theorem Fits.lookup (fits : Fits good table) (found : table.lookup key = some value) : good key value :=
  fits key value (mem_of_lookup found)

theorem Fits.drop (fits : Fits good table) : Fits good (drop key table) := by
  intro other held member
  exact fits other held (mem_filter.mp member).1

theorem Fits.put (fits : Fits good table) (fitting : good key value) : Fits good (put key value table) := by
  intro other held member
  rcases mem_cons.mp member with fresh | old
  · cases fresh
    exact fitting
  · exact fits other held (mem_filter.mp old).1

theorem push_lookup (other : κ) {table : List (κ × List α)} : ((push key value table).lookup other).getD [] =
      (table.lookup other).getD [] ++ if other = key then [value] else [] := by
  rw [push, lookup_put]
  by_cases same : other = key <;> simp [same]

/-- A group holds the values of its key in their order. -/
theorem group_lookup (keyOf : α → κ) (values : List α) (key : κ) :
    ((group keyOf values).lookup key).getD [] = values.filter fun value => keyOf value = key := by
  have grown : ∀ table : List (κ × List α),
      ((values.foldl (fun table value => push (keyOf value) value table) table).lookup key).getD [] =
        (table.lookup key).getD [] ++ values.filter fun value => keyOf value = key := by
    induction values with
    | nil => simp
    | cons value rest ih =>
      intro table
      rw [foldl_cons, ih, push_lookup, append_assoc]
      by_cases same : keyOf value = key
      · simp [same]
      · simp [same, Ne.symm same]
  simpa [group] using grown []

/-- The values of an index are values of its items. -/
theorem mem_index {keyOf : β → κ} {entry : κ × α}
    (listed : entry ∈ index keyOf valueOf items) : ∃ item ∈ items, entry = (keyOf item, valueOf item) := by
  have origin : ∀ table : List (κ × α),
      entry ∈ items.foldl (fun table item => put (keyOf item) (valueOf item) table) table →
        entry ∈ table ∨ ∃ item ∈ items, entry = (keyOf item, valueOf item) := by
    clear listed
    induction items with
    | nil => intro table member; exact .inl member
    | cons item rest ih =>
      intro table member
      rcases ih _ member with old | ⟨other, later, same⟩
      · rcases mem_cons.mp old with fresh | kept
        · exact .inr ⟨item, mem_cons_self, fresh⟩
        · exact .inl (mem_filter.mp kept).1
      · exact .inr ⟨other, mem_cons_of_mem item later, same⟩
  rcases origin [] listed with old | found
  · cases old
  · exact found

theorem index_lookup_absent {keyOf : β → κ}
    (absent : ∀ item ∈ items, keyOf item ≠ key) : (index keyOf valueOf items).lookup key = none := by
  have unchanged : ∀ table : List (κ × α),
      (items.foldl (fun table item => put (keyOf item) (valueOf item) table) table).lookup key = table.lookup key := by
    induction items with
    | nil => intro table; rfl
    | cons item rest ih =>
      intro table
      rw [foldl_cons, ih fun other member => absent other (mem_cons_of_mem item member), lookup_put,
        if_neg (Ne.symm (absent item mem_cons_self))]
  exact unchanged []

/-- Items of one key that agree on its value fix it. -/
theorem index_lookup {keyOf : β → κ}
    (agree : ∀ item ∈ items, keyOf item = key → valueOf item = value) {item : β} (listed : item ∈ items)
    (named : keyOf item = key) : (index keyOf valueOf items).lookup key = some value := by
  have found : ∀ table : List (κ × α), table.lookup key = some value ∨ (∃ item ∈ items, keyOf item = key) →
      (items.foldl (fun table item => put (keyOf item) (valueOf item) table) table).lookup key = some value := by
    clear listed named
    induction items with
    | nil =>
      intro table known
      rcases known with known | ⟨_, member, _⟩
      · exact known
      · cases member
    | cons first rest ih =>
      intro table known
      rw [foldl_cons]
      apply ih fun other member => agree other (mem_cons_of_mem first member)
      by_cases here : keyOf first = key
      · left
        rw [lookup_put, if_pos here.symm, agree first mem_cons_self here]
      · rcases known with known | ⟨other, member, same⟩
        · left
          rw [lookup_put, if_neg (Ne.symm here), known]
        · right
          rcases mem_cons.mp member with equal | later
          · exact absurd (equal ▸ same) here
          · exact ⟨other, later, same⟩
  exact found [] (.inr ⟨item, listed, named⟩)

end Tables

section Programs

variable {find : StateM σ (Option α)} {keep : α → StateM σ Unit} {value : α}

/-- A field is one part of a state. -/
structure Field (σ μ : Type) where
  read : σ → μ
  write : μ → σ → σ

/-- A step reads and writes only its field. -/
def Field.step (field : Field σ μ) (step : μ → α × μ) : StateM σ α := fun state =>
  ((step (field.read state)).1, field.write (step (field.read state)).2 state)

/-- A missing value is computed and then kept. -/
def memoised (find : StateM σ (Option α)) (compute : StateM σ α) (keep : α → StateM σ Unit) : StateM σ α := do
  match ← find with
  | some value => pure value
  | none =>
    let value ← compute
    keep value
    pure value

theorem run_memoised_found {compute : StateM σ α} {state after : σ}
    (found : find.run state = (some value, after)) : (memoised find compute keep).run state = (value, after) := by
  rw [memoised, StateT.run_bind, found]
  rfl

theorem run_memoised_missing {compute : StateM σ α} {state after : σ}
    (missing : find.run state = (none, after)) : (memoised find compute keep).run state =
      let computed := compute.run after
      (computed.1, ((keep computed.1).run computed.2).2) := by
  rw [memoised, StateT.run_bind, missing]
  rfl

/-- Every run keeps the invariant and ends with a good value. -/
def Yields (kept : σ → Prop) (program : StateM σ α) (good : α → Prop) : Prop :=
  ∀ state, kept state → good (program.run state).run.1 ∧ kept (program.run state).run.2

/-- The guarded field satisfies its own condition, and any part that does may replace it. -/
structure Field.Guarded (kept : σ → Prop) (field : Field σ μ) (fine : μ → Prop) : Prop where
  holds : ∀ state, kept state → fine (field.read state)
  kept : ∀ state part, kept state → fine part → kept (field.write part state)

variable {kept : σ → Prop} {good : α → Prop} {program : StateM σ α}

theorem Yields.pure (fine : good value) : Yields kept (pure value) good := fun _ held => ⟨fine, held⟩

theorem Yields.mono {better : α → Prop} (yields : Yields kept program better)
    (weaker : ∀ value, better value → good value) : Yields kept program good := by
  intro state held
  obtain ⟨value, after⟩ := yields state held
  exact ⟨weaker _ value, after⟩

theorem Yields.bind {next : α → StateM σ β} {ending : β → Prop} (first : Yields kept program good)
    (rest : ∀ value, good value → Yields kept (next value) ending) : Yields kept (program >>= next) ending := by
  intro state held
  obtain ⟨value, after⟩ := first state held
  exact rest _ value _ after

/-- A known value is passed to the rest of the program. -/
theorem Yields.andThen {next : α → StateM σ β} {ending : β → Prop} (first : Yields kept program (· = value))
    (rest : Yields kept (next value) ending) : Yields kept (program >>= next) ending := by
  apply first.bind
  intro found same
  rw [same]
  exact rest

theorem Yields.map_eq {update : α → β} (yields : Yields kept program (· = value)) :
    Yields kept (update <$> program) (· = update value) := by
  intro state held
  obtain ⟨same, after⟩ := yields state held
  exact ⟨congrArg update same, after⟩

theorem Yields.step {field : Field σ μ} {fine : μ → Prop} {step : μ → α × μ} (guarded : field.Guarded kept fine)
    (steps : ∀ part, fine part → good (step part).1 ∧ fine (step part).2) : Yields kept (field.step step) good := by
  intro state held
  obtain ⟨value, after⟩ := steps _ (guarded.holds state held)
  exact ⟨value, guarded.kept state _ held after⟩

theorem Yields.memoised (found : Yields kept find fun known => ∀ value, known = some value → good value)
    (computed : Yields kept program good) (keeps : ∀ value, good value → Yields kept (keep value) fun _ => True) :
    Yields kept (memoised find program keep) good := by
  apply found.bind
  intro known fits
  cases known with
  | some value => exact .pure (fits value rfl)
  | none =>
    apply computed.bind
    intro value fine
    apply (keeps value fine).bind
    intro _ _
    exact .pure fine

theorem Yields.allM {test : α → StateM σ Bool} {answer : α → Bool} (values : List α)
    (tests : ∀ value ∈ values, Yields kept (test value) (· = answer value)) :
    Yields kept (values.allM test) (· = values.all answer) := by
  induction values with
  | nil => exact .pure rfl
  | cons value rest ih =>
    apply (tests value mem_cons_self).andThen
    rw [all_cons]
    cases answer value with
    | true => simpa using ih fun other member => tests other (mem_cons_of_mem value member)
    | false => exact .pure rfl

/-- A filter by cached tests is the filter by their answers. -/
theorem Yields.filterM {test : α → StateM σ Bool} {answer : α → Bool} (values : List α)
    (tests : ∀ value ∈ values, Yields kept (test value) (· = answer value)) :
    Yields kept (values.filterM test) (· = values.filter answer) := by
  have gathered : ∀ found : List α,
      Yields kept (values.filterAuxM test found) (· = (values.filter answer).reverse ++ found) := by
    induction values with
    | nil => intro found; exact .pure rfl
    | cons value rest ih =>
      intro found
      apply (tests value mem_cons_self).andThen
      have later := ih fun other member => tests other (mem_cons_of_mem value member)
      cases passes : answer value with
      | true => simpa [filter_cons, passes] using later (value :: found)
      | false => simpa [filter_cons, passes] using later found
  apply (gathered []).andThen
  exact .pure (by simp)

theorem Yields.foldlM {step : β → α → StateM σ β} {result : β → α → β} (values : List α)
    (steps : ∀ value ∈ values, ∀ start, Yields kept (step start value) (· = result start value)) (start : β) :
    Yields kept (values.foldlM step start) (· = values.foldl result start) := by
  induction values generalizing start with
  | nil => exact .pure rfl
  | cons value rest ih =>
    rw [foldlM_cons, foldl_cons]
    apply (steps value mem_cons_self start).andThen
    exact ih (fun other member => steps other (mem_cons_of_mem value member)) _

theorem Yields.mapM {step : α → StateM σ β} {result : α → β} (values : List α)
    (steps : ∀ value ∈ values, Yields kept (step value) (· = result value)) :
    Yields kept (values.mapM step) (· = values.map result) := by
  induction values with
  | nil => exact .pure rfl
  | cons value rest ih =>
    rw [mapM_cons, map_cons]
    apply (steps value mem_cons_self).andThen
    apply (ih fun other member => steps other (mem_cons_of_mem value member)).andThen
    exact .pure rfl

end Programs

end Caching
