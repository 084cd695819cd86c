import Mathlib.Data.List.Nodup
import Codegraph.Library.RecencyLists
import Mathlib.Algebra.Group.Nat.Defs

/- This file models the bounded cache that evicts what was used least recently, and proves that it answers as a list
of recency does. -/

namespace Codegraph.Resolve
open Caching RecencyLists

/-- A map that is kept in the order of its stamps. -/
abbrev StampMap (κ : Type) := List (Nat × κ)

namespace StampMap

variable {κ : Type}

def insert (stamp : Nat) (key : κ) : StampMap κ → StampMap κ
  | [] => [(stamp, key)]
  | (other, held) :: rest =>
    if stamp < other then (stamp, key) :: (other, held) :: rest
    else if stamp = other then (stamp, key) :: rest
    else (other, held) :: insert stamp key rest

def remove (stamp : Nat) (map : StampMap κ) : StampMap κ := drop stamp map

/-- A stamp behind all others goes to the end. -/
theorem insert_last {stamp : Nat} {key : κ} {map : StampMap κ} (last : ∀ entry ∈ map, entry.1 < stamp) :
    insert stamp key map = map ++ [(stamp, key)] := by
  induction map with
  | nil => rfl
  | cons entry map ih =>
    have before := last entry List.mem_cons_self
    rw [insert.eq_def]
    dsimp only
    rw [if_neg (Nat.lt_asymm before), if_neg (Nat.ne_of_gt before),
      ih fun other member => last other (List.mem_cons_of_mem _ member)]
    rfl

end StampMap

/-- A cache of at most `max` entries. Stamps are 64-bit numbers. -/
structure LruCache (κ ν : Type) where
  max : Nat
  positive : 0 < max
  store : List (κ × ν × Nat)
  order : StampMap κ
  next : Nat

def stampAfter (stamp : Nat) : Nat := (stamp + 1) % 2 ^ 64

namespace LruCache

variable {κ ν : Type} [DecidableEq κ]

/-- A cache without room is refused. -/
def new (max : Nat) : Option (LruCache κ ν) := if positive : 0 < max then some ⟨max, positive, [], [], 0⟩ else none

def size (cache : LruCache κ ν) : Nat := cache.store.length

def has (cache : LruCache κ ν) (key : κ) : Bool := (cache.store.lookup key).isSome

def get (cache : LruCache κ ν) (key : κ) : Option ν × LruCache κ ν :=
  match cache.store.lookup key with
  | none => (none, cache)
  | some (value, previous) =>
    (some value,
      { cache with
        store := put key (value, cache.next) cache.store
        next := stampAfter cache.next
        order := match cache.order.lookup previous with
          | some held => (cache.order.remove previous).insert cache.next held
          | none => cache.order })

def set (cache : LruCache κ ν) (key : κ) (value : ν) : LruCache κ ν :=
  let room : List (κ × ν × Nat) × StampMap κ :=
    match cache.store.lookup key with
    | some (_, previous) => (cache.store, cache.order.remove previous)
    | none =>
      if cache.max ≤ cache.store.length then
        match cache.order with
        | [] => (cache.store, [])
        | (_, oldest) :: rest => (drop oldest cache.store, rest)
      else (cache.store, cache.order)
  { cache with
    store := put key (value, cache.next) room.1
    order := room.2.insert cache.next key
    next := stampAfter cache.next }

def clear (cache : LruCache κ ν) : LruCache κ ν := { cache with store := [], order := [] }

def step (cache : LruCache κ ν) : Call κ ν → Option ν × LruCache κ ν
  | .get key => cache.get key
  | .set key value => (none, cache.set key value)
  | .clear => (none, cache.clear)

end LruCache

section Rows

variable {κ ν : Type}

/-- An entry with the stamp of its last use. -/
structure StampedRow (κ ν : Type) where
  key : κ
  value : ν
  stamp : Nat

def StampedRow.stored (row : StampedRow κ ν) : κ × ν × Nat := (row.key, row.value, row.stamp)

def StampedRow.ordered (row : StampedRow κ ν) : Nat × κ := (row.stamp, row.key)

def StampedRow.entry (row : StampedRow κ ν) : κ × ν := (row.key, row.value)

/-- The two maps of a cache hold the same rows, the one by key and the other one by stamp. -/
structure Holds (cache : LruCache κ ν) (rows : List (StampedRow κ ν)) : Prop where
  store : cache.store.Perm (rows.map StampedRow.stored)
  order : cache.order = rows.map StampedRow.ordered
  once : (rows.map StampedRow.key).Nodup
  rising : (rows.map StampedRow.stamp).Pairwise (· < ·)
  below : ∀ row ∈ rows, row.stamp < cache.next

variable {cache : LruCache κ ν} {rows rest : List (StampedRow κ ν)} {row first second : StampedRow κ ν} {key : κ}
  {value : ν} {stamp : Nat}

theorem Holds.distinct (holds : Holds cache rows) : (cache.store.map Prod.fst).Nodup := by
  rw [(holds.store.map Prod.fst).nodup_iff, List.map_map]
  exact holds.once

theorem Holds.distinct_entries (holds : Holds cache rows) : ((rows.map StampedRow.entry).map Prod.fst).Nodup := by
  rw [List.map_map]
  exact holds.once

theorem Holds.distinct_stamps (holds : Holds cache rows) : ((rows.map StampedRow.ordered).map Prod.fst).Nodup := by
  rw [List.map_map]
  exact holds.rising.imp Nat.ne_of_lt

theorem Holds.stamp_inj (holds : Holds cache rows) (inFirst : first ∈ rows) (inSecond : second ∈ rows) :
    first.stamp = second.stamp ↔ first.key = second.key := by
  have stamps : (rows.map StampedRow.stamp).Nodup := holds.rising.imp Nat.ne_of_lt
  constructor
  · intro same
    rw [List.inj_on_of_nodup_map stamps inFirst inSecond same]
  · intro same
    rw [List.inj_on_of_nodup_map holds.once inFirst inSecond same]

theorem Holds.size (holds : Holds cache rows) : cache.size = rows.length := by
  rw [LruCache.size, holds.store.length_eq, List.length_map]

variable {limit count : Nat} {entries : List (κ × ν)}

/-- A cache and a list of recency have the same entries, and no more stamps are given than calls were made. -/
def Related (limit count : Nat) (cache : LruCache κ ν) (entries : List (κ × ν)) : Prop :=
  cache.max = limit ∧ cache.next ≤ count ∧ ∃ rows, Holds cache rows ∧ entries = rows.map StampedRow.entry

theorem stampAfter_le (held : cache.next ≤ count) : stampAfter cache.next ≤ count + 1 :=
  Nat.le_trans (Nat.mod_le _ _) (Nat.succ_le_succ held)

theorem new_related (created : LruCache.new limit = some cache) : Related limit 0 cache [] := by
  rw [LruCache.new] at created
  split_ifs at created
  obtain rfl := Option.some.inj created
  exact ⟨rfl, Nat.le_refl 0, [], ⟨.nil, rfl, List.nodup_nil, .nil, by simp⟩, rfl⟩

variable [DecidableEq κ]

def without (key : κ) (rows : List (StampedRow κ ν)) : List (StampedRow κ ν) := rows.filter fun row => row.key ≠ key

theorem without_of_absent (absent : ∀ row ∈ rows, row.key ≠ key) : without key rows = rows :=
  List.filter_eq_self.mpr fun row member => decide_eq_true (absent row member)

theorem drop_stored (key : κ) (rows : List (StampedRow κ ν)) :
    drop key (rows.map StampedRow.stored) = (without key rows).map StampedRow.stored :=
  List.filter_map ..

theorem drop_entry (key : κ) (rows : List (StampedRow κ ν)) :
    drop key (rows.map StampedRow.entry) = (without key rows).map StampedRow.entry :=
  List.filter_map ..

section

variable (holds : Holds cache rows)
include holds

theorem Holds.lookup_iff : cache.store.lookup key = some (value, stamp) ↔ ⟨key, value, stamp⟩ ∈ rows := by
  rw [lookup_iff_mem holds.distinct, holds.store.mem_iff, List.mem_map]
  constructor
  · rintro ⟨row, member, same⟩
    simp only [StampedRow.stored, Prod.mk.injEq] at same
    obtain ⟨rfl, rfl, rfl⟩ := same
    exact member
  · exact fun member => ⟨_, member, rfl⟩

/-- The reference's list answers for a key as the store does. -/
theorem Holds.lookup_entries (key : κ) :
    (rows.map StampedRow.entry).lookup key = (cache.store.lookup key).map Prod.fst := by
  ext value
  rw [lookup_iff_mem holds.distinct_entries, List.mem_map, Option.map_eq_some_iff]
  constructor
  · rintro ⟨row, member, same⟩
    simp only [StampedRow.entry, Prod.mk.injEq] at same
    obtain ⟨rfl, rfl⟩ := same
    exact ⟨_, holds.lookup_iff.mpr member, rfl⟩
  · rintro ⟨⟨value, stamp⟩, found, rfl⟩
    exact ⟨_, holds.lookup_iff.mp found, rfl⟩

theorem Holds.absent (none_ : cache.store.lookup key = none) (member : row ∈ rows) : row.key ≠ key := by
  rintro rfl
  have found := holds.lookup_iff.mpr member
  rw [none_] at found
  cases found

/-- Of the two maps the one by stamps gives the key of each stamp that the other one gives. -/
theorem Holds.inverse : (cache.store.lookup key).map Prod.snd = some stamp ↔ cache.order.lookup stamp = some key := by
  rw [holds.order, lookup_iff_mem holds.distinct_stamps, List.mem_map, Option.map_eq_some_iff]
  constructor
  · rintro ⟨⟨value, stamp⟩, found, rfl⟩
    exact ⟨_, holds.lookup_iff.mp found, rfl⟩
  · rintro ⟨row, member, same⟩
    simp only [StampedRow.ordered, Prod.mk.injEq] at same
    obtain ⟨rfl, rfl⟩ := same
    exact ⟨_, holds.lookup_iff.mpr member, rfl⟩

/-- The stamp of a key leaves the order with the key's row alone. -/
theorem Holds.remove (member : ⟨key, value, stamp⟩ ∈ rows) :
    cache.order.remove stamp = (without key rows).map StampedRow.ordered := by
  rw [holds.order, StampMap.remove, drop, List.filter_map, without]
  refine congrArg _ (List.filter_congr fun row inside => ?_)
  exact decide_eq_decide.mpr (not_congr (holds.stamp_inj inside member))

/-- A key that is used gets the next stamp, and its row goes behind all others. -/
theorem Holds.used (room : cache.next + 1 < 2 ^ 64) (key : κ) (value : ν) : Holds { cache with
      store := put key (value, cache.next) cache.store
      order := StampMap.insert cache.next key ((without key rows).map StampedRow.ordered)
      next := stampAfter cache.next } (without key rows ++ [⟨key, value, cache.next⟩]) := by
  have after : stampAfter cache.next = cache.next + 1 := Nat.mod_eq_of_lt room
  have sublist : (without key rows).Sublist rows := List.filter_sublist
  have below : ∀ row ∈ without key rows, row.stamp < cache.next :=
    fun row member => holds.below row (sublist.subset member)
  refine ⟨?_, ?_, ?_, ?_, ?_⟩
  · rw [List.map_append, ← drop_stored]
    exact ((holds.store.filter _).cons _).trans (List.perm_append_singleton _ _).symm
  · rw [List.map_append]
    refine StampMap.insert_last fun entry member => ?_
    obtain ⟨row, inside, rfl⟩ := List.mem_map.mp member
    exact below row inside
  · rw [List.map_append, List.nodup_append]
    refine ⟨holds.once.sublist (sublist.map _), List.nodup_singleton _, fun other member last inLast same => ?_⟩
    obtain ⟨row, inside, rfl⟩ := List.mem_map.mp member
    obtain rfl : last = key := List.mem_singleton.mp inLast
    exact of_decide_eq_true (List.mem_filter.mp inside).2 same
  · rw [List.map_append, List.pairwise_append]
    refine ⟨holds.rising.sublist (sublist.map _), List.pairwise_singleton _ _, fun other member last inLast => ?_⟩
    obtain ⟨row, inside, rfl⟩ := List.mem_map.mp member
    obtain rfl : last = cache.next := List.mem_singleton.mp inLast
    exact below row inside
  · intro row member
    rw [after]
    rcases List.mem_append.mp member with before | last
    · exact Nat.lt_succ_of_lt (below row before)
    · rw [List.mem_singleton.mp last]
      exact Nat.lt_succ_self _

end

/-- The row with the first stamp leaves both maps. -/
theorem Holds.evicted (holds : Holds cache (first :: rest)) :
    Holds { cache with store := drop first.key cache.store, order := rest.map StampedRow.ordered } rest := by
  obtain ⟨store, order, once, rising, below⟩ := holds
  rw [List.map_cons, List.nodup_cons] at once
  have apart : ∀ row ∈ rest, row.key ≠ first.key := fun row member same => once.1 (same ▸ List.mem_map_of_mem member)
  refine ⟨?_, rfl, once.2, (List.pairwise_cons.mp rising).2,
    fun row member => below row (List.mem_cons_of_mem _ member)⟩
  have left : without first.key (first :: rest) = rest := by
    rw [without, List.filter_cons_of_neg (by simp), ← without, without_of_absent apart]
  have dropped := store.filter fun entry => entry.1 ≠ first.key
  rw [← drop, ← drop, drop_stored, left] at dropped
  exact dropped

theorem touch_entries (key : κ) (value : ν) (stamp : Nat) (rows : List (StampedRow κ ν)) :
    touch key value (rows.map StampedRow.entry) =
      (without key rows ++ [StampedRow.mk key value stamp]).map StampedRow.entry := by
  rw [touch, drop_entry, List.map_append]
  rfl

/-- Reading a key keeps the cache related to its recency list, with the same answer. -/
theorem get_related (room : count + 1 < 2 ^ 64) (related : Related limit count cache entries) (key : κ) :
    (cache.get key).1 = (step limit entries (.get key)).1 ∧ Related limit (count + 1)
    (cache.get key).2 (step limit entries (.get key)).2 := by
  obtain ⟨bounded, held, rows, holds, rfl⟩ := related
  rw [LruCache.get, step, holds.lookup_entries]
  cases found : cache.store.lookup key with
  | none => exact ⟨rfl, bounded, Nat.le_succ_of_le held, rows, holds, rfl⟩
  | some entry =>
    obtain ⟨value, stamp⟩ := entry
    have member := holds.lookup_iff.mp found
    have named : cache.order.lookup stamp = some key := holds.inverse.mp (by rw [found]; rfl)
    have used := holds.used (Nat.lt_of_le_of_lt (Nat.succ_le_succ held) room) key value
    rw [← holds.remove member] at used
    dsimp only [Option.map_some]
    rw [named]
    exact ⟨rfl, bounded, stampAfter_le held, _, used, touch_entries key value cache.next rows⟩

/-- Storing a value keeps the cache related to its recency list. -/
theorem set_related (room : count + 1 < 2 ^ 64) (related : Related limit count cache entries) (key : κ) (value : ν) :
    Related limit (count + 1) (cache.set key value) (step limit entries (.set key value)).2 := by
  obtain ⟨rfl, held, rows, holds, rfl⟩ := related
  have room' : cache.next + 1 < 2 ^ 64 := Nat.lt_of_le_of_lt (Nat.succ_le_succ held) room
  rw [LruCache.set, step, holds.lookup_entries]
  cases found : cache.store.lookup key with
  | some entry =>
    obtain ⟨old, stamp⟩ := entry
    have used := holds.used room' key value
    rw [← holds.remove (holds.lookup_iff.mp found)] at used
    exact ⟨rfl, stampAfter_le held, _, used, touch_entries key value cache.next rows⟩
  | none =>
    have absent : ∀ row ∈ rows, row.key ≠ key := fun row member => holds.absent found member
    have size : cache.store.length = rows.length := holds.size
    dsimp only [Option.map_none, Option.isSome_none]
    rw [if_neg Bool.false_ne_true, makeRoom, size, List.length_map]
    split_ifs with full
    · cases rows with
      | nil => exact absurd cache.positive (Nat.not_lt.mpr full)
      | cons first rest =>
        have used := holds.evicted.used room' key value
        have kept : without key rest = rest :=
          without_of_absent fun row member => absent row (List.mem_cons_of_mem _ member)
        rw [kept] at used
        rw [holds.order]
        refine ⟨rfl, stampAfter_le held, _, used, ?_⟩
        exact (touch_entries key value cache.next rest).trans (by rw [kept])
    · have used := holds.used room' key value
      rw [without_of_absent absent, ← holds.order] at used
      refine ⟨rfl, stampAfter_le held, _, used, ?_⟩
      rw [touch_entries key value cache.next rows, without_of_absent absent]

theorem step_related (room : count + 1 < 2 ^ 64) (related : Related limit count cache entries) (call : Call κ ν) :
    (cache.step call).1 = (step limit entries call).1 ∧ Related limit (count + 1)
    (cache.step call).2 (step limit entries call).2 := by
  cases call with
  | get key => exact get_related room related key
  | set key value => exact ⟨rfl, set_related room related key value⟩
  | clear =>
    obtain ⟨bounded, held, -⟩ := related
    exact ⟨rfl, bounded, Nat.le_succ_of_le held, [], ⟨.nil, rfl, List.nodup_nil, .nil, by simp⟩, rfl⟩

/-- A set of a new key in a full cache takes away the key that was used least recently, and no other set takes a key
away. -/
theorem lost_iff (related : Related limit count cache entries) (key other : κ) (value : ν) :
    cache.has other = true ∧ (cache.set key value).has other = false ↔
      limit ≤ entries.length ∧ entries.lookup key = none ∧ entries.head?.map Prod.fst = some other := by
  obtain ⟨rfl, -, rows, holds, rfl⟩ := related
  have size : cache.store.length = rows.length := holds.size
  rw [LruCache.has, LruCache.has, LruCache.set, lookup_put, holds.lookup_entries, List.length_map]
  cases found : cache.store.lookup key with
  | some entry =>
    dsimp only [Option.map_some]
    constructor
    · rintro ⟨present, lost⟩
      split_ifs at lost
      · cases lost
      · rw [present] at lost
        cases lost
    · rintro ⟨-, none_, -⟩
      cases none_
  | none =>
    dsimp only [Option.map_none]
    rw [size]
    by_cases full : cache.max ≤ rows.length
    · rw [if_pos full]
      cases rows with
      | nil => exact absurd cache.positive (Nat.not_lt.mpr full)
      | cons first rest =>
        have absent : first.key ≠ key := holds.absent found List.mem_cons_self
        have present : cache.store.lookup first.key = some (first.value, first.stamp) :=
          holds.lookup_iff.mpr List.mem_cons_self
        rw [holds.order, List.map_cons]
        dsimp only [StampedRow.ordered]
        constructor
        · rintro ⟨present, lost⟩
          refine ⟨full, rfl, ?_⟩
          by_contra other_
          have apart : other ≠ first.key := fun same => other_ (congrArg some same.symm)
          split_ifs at lost
          · cases lost
          · rw [lookup_drop_other apart, present] at lost
            cases lost
        · rintro ⟨-, -, same⟩
          obtain rfl : first.key = other := Option.some.inj same
          refine ⟨by rw [present]; rfl, ?_⟩
          rw [if_neg absent, lookup_drop_self]
          rfl
    · rw [if_neg full]
      constructor
      · rintro ⟨present, lost⟩
        split_ifs at lost
        · cases lost
        · rw [present] at lost
          cases lost
      · rintro ⟨full', -⟩
        exact absurd full' full

/-- What holds between a cache and the list of recency behind the same calls. -/
structure AgreesWithRecency (limit : Nat) (calls : List (Call κ ν)) (cache : LruCache κ ν) (entries : List (κ × ν)) :
    Prop where
  size : cache.size = entries.length
  bounded : cache.size ≤ limit
  has : ∀ key, cache.has key = (entries.lookup key).isSome
  get : ∀ key, (cache.get key).1 = entries.lookup key
  recency : (entries.map Prod.fst).Pairwise (UsedBefore calls)
  evicts : ∀ key value other, cache.has other = true ∧ (cache.set key value).has other = false ↔
    limit ≤ entries.length ∧ entries.lookup key = none ∧ entries.head?.map Prod.fst = some other
  inverse : ∀ key stamp, (cache.store.lookup key).map Prod.snd = some stamp ↔ cache.order.lookup stamp = some key

/-- A cache answers as a list of recency does, through any calls that do not use up the stamps. -/
theorem lru_cache_agrees (created : LruCache.new limit = some cache) (calls : List (Call κ ν))
    (few : calls.length < 2 ^ 64) : (transcript LruCache.step cache calls).1 = (transcript (step limit) [] calls).1 ∧
      AgreesWithRecency limit calls (transcript LruCache.step cache calls).2 (transcript (step limit) [] calls).2 := by
  have positive : 0 < limit := by
    rw [LruCache.new] at created
    split_ifs at created with positive
    exact positive
  obtain ⟨answers, related⟩ := transcript_simulates (new_related created)
    (fun count _ _ call early related => step_related (Nat.add_lt_of_lt_sub early) related call)
      (Nat.le_sub_one_of_lt few)
  have lost := lost_iff related
  obtain ⟨-, -, rows, holds, shape⟩ := related
  have size : (transcript LruCache.step cache calls).2.size = (transcript (step limit) [] calls).2.length := by
    rw [shape, List.length_map, holds.size]
  refine ⟨answers, size, size ▸ run_length positive calls, fun key => ?_, fun key => ?_, run_ordered limit calls,
    fun key value other => lost key other value,
    fun key stamp => holds.inverse⟩
  · rw [shape, holds.lookup_entries, Option.isSome_map, LruCache.has]
  · rw [shape, holds.lookup_entries, LruCache.get]
    cases (transcript LruCache.step cache calls).2.store.lookup key <;> rfl

/-- A cache of two entries of which one is refreshed. -/
theorem lru_cache_agrees_refreshed : (transcript LruCache.step (⟨2, by decide, [], [], 0⟩ : LruCache Char Nat)
    [.set 'a' 1, .set 'b' 2, .get 'a', .set 'c' 3]).2.has 'b' = false := by
  have agrees := lru_cache_agrees (rfl : LruCache.new 2 = some ⟨2, by decide, [], [], 0⟩)
    [Call.set 'a' 1, .set 'b' 2, .get 'a', .set 'c' 3] (by decide)
  rw [agrees.2.has]
  decide

end Rows

end Codegraph.Resolve
