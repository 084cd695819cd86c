import Mathlib.Data.List.Induction
import Codegraph.Library.Caching

/- This file gives runs of calls, and lists of entries that are kept by how recently each was used. -/

namespace RecencyLists
open Caching List

section Runs

variable {σ τ α β : Type}

/-- The answers to some calls and the state behind the last one. -/
def transcript (step : σ → α → β × σ) (start : σ) (calls : List α) : List β × σ :=
  calls.foldl (fun past call => (past.1 ++ [(step past.2 call).1], (step past.2 call).2)) ([], start)

theorem transcript_concat (step : σ → α → β × σ) (start : σ) (calls : List α) (call : α) :
    transcript step start (calls ++ [call]) =
    ((transcript step start calls).1 ++ [(step (transcript step start calls).2 call).1],
      (step (transcript step start calls).2 call).2) := by
  rw [transcript, foldl_append]
  rfl

/-- What holds at first and is kept by each call holds behind all of them. -/
theorem transcript_keeps {step : σ → α → β × σ} {start : σ} (holds : List α → σ → Prop) (starts : holds [] start)
    (kept : ∀ calls state call, holds calls state → holds (calls ++ [call]) (step state call).2) (calls : List α) :
    holds calls (transcript step start calls).2 := by
  induction calls using reverseRecOn with
  | nil => exact starts
  | append_singleton calls call ih =>
    rw [transcript_concat]
    exact kept calls _ call ih

/-- Two machines whose states stay related answer alike. -/
theorem transcript_simulates {step : σ → α → β × σ} {step' : τ → α → β × τ} {start : σ} {start' : τ}
    {related : Nat → σ → τ → Prop} {bound : Nat} (starts : related 0 start start')
    (kept : ∀ count state state' call, count < bound → related count state state' →
      (step state call).1 = (step' state' call).1 ∧ related (count + 1) (step state call).2 (step' state' call).2)
        {calls : List α}
    (few : calls.length ≤ bound) : (transcript step start calls).1 = (transcript step' start' calls).1 ∧
      related calls.length (transcript step start calls).2 (transcript step' start' calls).2 := by
  induction calls using reverseRecOn with
  | nil => exact ⟨rfl, starts⟩
  | append_singleton calls call ih =>
    rw [length_append, length_singleton] at few ⊢
    obtain ⟨answers, held⟩ := ih (Nat.le_of_succ_le few)
    obtain ⟨answer, next⟩ := kept calls.length _ _ call few held
    rw [transcript_concat, transcript_concat, answers, answer]
    exact ⟨rfl, next⟩

end Runs

inductive Call (κ ν : Type)
  | get (key : κ)
  | set (key : κ) (value : ν)
  | clear

/-- A call uses the key that it names. -/
def Call.Names {κ ν : Type} (key : κ) : Call κ ν → Prop
  | .get other => other = key
  | .set other _ => other = key
  | .clear => False

section Lists

variable {κ ν : Type}

/-- A full list loses the entry that was used least recently. -/
def makeRoom (limit : Nat) (entries : List (κ × ν)) : List (κ × ν) :=
  if limit ≤ entries.length then entries.tail else entries

/-- Of two keys the second is named behind the last call that names the first. -/
def UsedBefore (calls : List (Call κ ν)) (first second : κ) : Prop :=
  ∃ early late, calls = early ++ late ∧ (∃ call ∈ late, call.Names second) ∧ ∀ call ∈ late, ¬ call.Names first

variable {entries : List (κ × ν)} {limit : Nat} {key first second : κ} {value : ν} {calls : List (Call κ ν)}
  {call : Call κ ν}

theorem makeRoom_sublist : (makeRoom limit entries).Sublist entries := by
  rw [makeRoom]
  split_ifs
  · exact tail_sublist entries
  · exact .refl entries

theorem UsedBefore.later (used : UsedBefore calls first second) (other : ¬ call.Names first) :
    UsedBefore (calls ++ [call]) first second := by
  obtain ⟨early, late, rfl, ⟨named, member, names⟩, free⟩ := used
  refine ⟨early, late ++ [call], append_assoc .., ⟨named, mem_append_left _ member, names⟩,
    fun any inside => ?_⟩
  rcases mem_append.mp inside with before | last
  · exact free any before
  · exact mem_singleton.mp last ▸ other

theorem usedBefore_last (names : call.Names second) (other : ¬ call.Names first) :
    UsedBefore (calls ++ [call]) first second :=
  ⟨calls, [call], rfl, ⟨call, mem_singleton_self _, names⟩, fun _ member => mem_singleton.mp member ▸ other⟩

variable [DecidableEq κ]

/-- A used entry goes behind all others. -/
def touch (key : κ) (value : ν) (entries : List (κ × ν)) : List (κ × ν) := drop key entries ++ [(key, value)]

/-- A list of at most some entries, with the least recently used one in front. -/
def step (limit : Nat) (entries : List (κ × ν)) : Call κ ν → Option ν × List (κ × ν)
  | .get key =>
    match entries.lookup key with
    | none => (none, entries)
    | some value => (some value, touch key value entries)
  | .set key value => (none, touch key value (if (entries.lookup key).isSome then entries else makeRoom limit entries))
  | .clear => (none, [])

theorem drop_sublist : (drop key entries).Sublist entries := filter_sublist

theorem not_mem_drop : key ∉ (drop key entries).map Prod.fst := by
  intro member
  obtain ⟨entry, inside, same⟩ := mem_map.mp member
  simpa [same] using (mem_filter.mp inside).2

theorem drop_of_absent (absent : entries.lookup key = none) : drop key entries = entries := by
  rw [lookup_eq_none_iff] at absent
  refine filter_eq_self.mpr fun entry member => ?_
  have apart := absent entry member
  simp only [bne_iff_ne, ne_eq] at apart
  exact decide_eq_true fun same => apart same.symm

theorem length_touch_absent (absent : entries.lookup key = none) :
    (touch key value entries).length = entries.length + 1 := by
  rw [touch, drop_of_absent absent, length_append, length_singleton]

theorem length_touch_present (present : (entries.lookup key).isSome = true) :
    (touch key value entries).length ≤ entries.length := by
  obtain ⟨old, found⟩ := Option.isSome_iff_exists.mp present
  have shorter : (drop key entries).length < entries.length :=
    length_filter_lt_length_iff_exists.mpr ⟨_, mem_of_lookup found, by simp⟩
  rw [touch, length_append, length_singleton]
  exact shorter

theorem lookup_of_sublist {fewer : List (κ × ν)} (sublist : fewer.Sublist entries)
    (absent : entries.lookup key = none) : fewer.lookup key = none := by
  rw [lookup_eq_none_iff] at absent ⊢
  exact fun entry member => absent entry (sublist.subset member)

/-- The list never gets longer than its limit. -/
theorem step_length (positive : 0 < limit) (short : entries.length ≤ limit) :
    (step limit entries call).2.length ≤ limit := by
  cases call with
  | get key =>
    rw [step]
    cases found : entries.lookup key with
    | none => exact short
    | some value => exact Nat.le_trans (length_touch_present (Option.isSome_of_eq_some found)) short
  | set key value =>
    rw [step]
    split_ifs with present
    · exact Nat.le_trans (length_touch_present present) short
    · rw [Bool.not_eq_true, Option.isSome_eq_false_iff, Option.isNone_iff_eq_none] at present
      rw [length_touch_absent (lookup_of_sublist makeRoom_sublist present), makeRoom]
      split_ifs
      · rw [length_tail]
        omega
      · omega
  | clear => exact Nat.zero_le _

/-- A touch keeps the list in the order of the last uses. -/
theorem pairwise_touch (ordered : (entries.map Prod.fst).Pairwise (UsedBefore calls))
    (names : ∀ other, call.Names other ↔ key = other) :
    ((touch key value entries).map Prod.fst).Pairwise (UsedBefore (calls ++ [call])) := by
  have apart : ∀ other ∈ (drop key entries).map Prod.fst, ¬ call.Names other := by
    intro other member named
    obtain rfl := (names other).mp named
    exact not_mem_drop member
  rw [touch, map_append, pairwise_append]
  refine ⟨?_, pairwise_singleton _ _, ?_⟩
  · exact (ordered.sublist (drop_sublist.map _)).imp_of_mem fun inside _ used => used.later (apart _ inside)
  · intro other member last same
    obtain rfl : last = key := mem_singleton.mp same
    exact usedBefore_last ((names last).mpr rfl) (apart other member)

/-- The list stays in the order in which its keys were last used. -/
theorem step_ordered (ordered : (entries.map Prod.fst).Pairwise (UsedBefore calls)) :
    ((step limit entries call).2.map Prod.fst).Pairwise (UsedBefore (calls ++ [call])) := by
  cases call with
  | get key =>
    rw [step]
    cases found : entries.lookup key with
    | none =>
      refine ordered.imp_of_mem fun {first _} inside _ used => used.later ?_
      rintro rfl
      obtain ⟨entry, member, same⟩ := mem_map.mp inside
      have apart := lookup_eq_none_iff.mp found entry member
      simp [same] at apart
    | some value => exact pairwise_touch ordered fun _ => .rfl
  | set key value =>
    rw [step]
    split_ifs
    · exact pairwise_touch ordered fun _ => .rfl
    · exact pairwise_touch (ordered.sublist (makeRoom_sublist.map _)) fun _ => .rfl
  | clear => exact .nil

theorem run_length (positive : 0 < limit) (calls : List (Call κ ν)) :
    (transcript (step limit) [] calls).2.length ≤ limit := by
  refine transcript_keeps (fun _ (entries : List (κ × ν)) => entries.length ≤ limit) ?_ ?_ calls
  · exact Nat.zero_le limit
  · exact fun _ _ _ short => step_length positive short

theorem run_ordered (limit : Nat) (calls : List (Call κ ν)) :
    ((transcript (step limit) [] calls).2.map Prod.fst).Pairwise (UsedBefore calls) := by
  refine transcript_keeps
    (fun calls (entries : List (κ × ν)) => (entries.map Prod.fst).Pairwise (UsedBefore calls)) ?_ ?_ calls
  · exact .nil
  · exact fun _ _ _ ordered => step_ordered ordered

end Lists

end RecencyLists
