import Codegraph.Resolve.FileMemo
import Codegraph.Resolve.LruCache

/- This file proves that the bounded caches of the two resolution contexts keep each value under its key. -/

namespace Codegraph.Resolve
open Caching

variable {V : Type}

section LruCache
namespace LruCache

/-- Every cached value fits its key. -/
def Holds (good : String → V → Prop) (cache : LruCache String V) : Prop :=
  Fits (fun key (entry : V × Nat) => good key entry.1) cache.store

variable {good : String → V → Prop} {cache : LruCache String V} {key : String} {value : V} {stamp : Nat}

theorem get_eq_some (stored : cache.store.lookup key = some (value, stamp)) : (cache.get key).1 = some value := by
  rw [get, stored]

theorem get_set (cache : LruCache String V) (key : String) (value : V) :
    ((cache.set key value).get key).1 = some value := by
  apply get_eq_some
  rw [set, lookup_put, if_pos rfl]

theorem get_again (found : (cache.get key).1 = some value) : ((cache.get key).2.get key).1 = some value := by
  cases stored : cache.store.lookup key with
  | none =>
    rw [get, stored] at found
    cases found
  | some entry =>
    rw [get, stored] at found
    cases found
    apply get_eq_some
    rw [get, stored]
    exact (lookup_put key).trans (if_pos rfl)

theorem holds_new (max : Nat) (roomy : (new max : Option (LruCache String V)).isSome) :
    ((new max).get roomy).Holds good := by
  have created : new max = some ((new max).get roomy) := (Option.some_get roomy).symm
  generalize (new max).get roomy = cache at created
  rw [LruCache.new] at created
  split_ifs at created
  obtain rfl := Option.some.inj created
  intro key entry member
  cases member

theorem Holds.get (holds : cache.Holds good) (key : String) :
    (∀ value, (cache.get key).1 = some value → good key value) ∧ (cache.get key).2.Holds good := by
  unfold LruCache.get
  cases found : cache.store.lookup key with
  | none => exact ⟨fun _ absent => (Option.some_ne_none _ absent.symm).elim, holds⟩
  | some entry =>
    have fitting : good key entry.1 := holds key entry (mem_of_lookup found)
    constructor
    · intro value same
      cases same
      exact fitting
    · exact .put holds fitting

theorem Holds.set (holds : cache.Holds good) (fitting : good key value) : (cache.set key value).Holds good := by
  unfold LruCache.set
  refine .put ?_ fitting
  split
  · exact holds
  · split
    · split
      · exact holds
      · exact .drop holds
    · exact holds

end LruCache
end LruCache

section BoundedFileMemo
namespace BoundedFileMemo

/-- A known key is marked and a new one is installed without a value. -/
def claim (key : String) (memo : BoundedFileMemo V) : Option V × BoundedFileMemo V :=
  match memo.entries.lookup key with
  | some entry => (entry.value, { memo with entries := put key { entry with recentlyUsed := true } memo.entries })
  | none =>
    let roomy := (makeRoom memo).2
    (none, { roomy with entries := put key .new roomy.entries, order := roomy.order ++ [key] })

/-- The first value of an entry stays. The key of a value that took long may be gone. -/
def fill (key : String) (value : V) (memo : BoundedFileMemo V) : BoundedFileMemo V :=
  match memo.entries.lookup key with
  | some entry => { memo with entries := put key { entry with value := some (entry.value.getD value) } memo.entries }
  | none => memo

/-- A call that no other call comes between is a claim and, where no value is known, a filling. -/
theorem getOrInit_eq (init : String → V) (memo : BoundedFileMemo V) (key : String) :
    ((memo.getOrInit init key).1, (memo.getOrInit init key).2.2) =
      match (memo.claim key).1 with
      | some value => (value, (memo.claim key).2)
      | none => (init key, (memo.claim key).2.fill key (init key)) := by
  rw [getOrInit, claim]
  cases found : memo.entries.lookup key with
  | some entry =>
    obtain ⟨known, used⟩ := entry
    cases known with
    | some value => rfl
    | none =>
      dsimp only
      rw [fill, lookup_put, if_pos rfl]
      dsimp only [Option.getD_none]
      rw [put_put]
  | none =>
    dsimp only [MemoEntry.new]
    rw [fill, lookup_put, if_pos rfl]
    dsimp only [Option.getD_none]
    rw [put_put]

/-- Every value of the memo fits its key. -/
def Holds (good : String → V → Prop) (memo : BoundedFileMemo V) : Prop :=
  Fits (fun key (entry : MemoEntry V) => ∀ value, entry.value = some value → good key value) memo.entries

variable {good : String → V → Prop} {memo : BoundedFileMemo V} {key : String} {value : V}

theorem holds_new (maxEntries : Nat) (roomy : (new maxEntries : Option (BoundedFileMemo V)).isSome) :
    ((new maxEntries).get roomy).Holds good := by
  have created : new maxEntries = some ((new maxEntries).get roomy) := (Option.some_get roomy).symm
  generalize (new maxEntries).get roomy = memo at created
  rw [BoundedFileMemo.new] at created
  split_ifs at created
  obtain rfl := Option.some.inj created
  intro key entry member
  cases member

theorem Holds.makeRoom (holds : memo.Holds good) : memo.makeRoom.2.Holds good := by
  fun_induction BoundedFileMemo.makeRoom memo with
  | case1 => exact holds
  | case2 =>
    intro key entry member
    cases member
  | case3 memo _ oldest rest _ _ ih => exact ih holds
  | case4 memo _ oldest rest _ entry found _ _ ih =>
    exact ih (.put holds (holds oldest entry (mem_of_lookup found)))
  | case5 memo _ oldest rest _ entry _ _ _ ih => exact ih (.drop holds)

theorem Holds.claim (holds : memo.Holds good) (key : String) :
    (∀ value, (memo.claim key).1 = some value → good key value) ∧ (memo.claim key).2.Holds good := by
  unfold BoundedFileMemo.claim
  cases found : memo.entries.lookup key with
  | some entry =>
    have fitting := holds key entry (mem_of_lookup found)
    exact ⟨fitting, .put holds fitting⟩
  | none =>
    exact ⟨fun _ absent => (Option.some_ne_none _ absent.symm).elim,
      .put holds.makeRoom fun _ absent => (Option.some_ne_none _ absent.symm).elim⟩

theorem Holds.fill (holds : memo.Holds good) (fitting : good key value) : (memo.fill key value).Holds good := by
  unfold BoundedFileMemo.fill
  split
  · rename_i entry found
    refine .put holds fun filled same => ?_
    cases known : entry.value with
    | some first =>
      rw [known] at same
      cases same
      exact holds key entry (mem_of_lookup found) first known
    | none =>
      rw [known] at same
      cases same
      exact fitting
  · exact holds

end BoundedFileMemo
end BoundedFileMemo

section Bounded

/-- A full memo forgets everything before it learns more. -/
def setRestarting (limit : Nat) (key : String) (value : V) (memo : List (String × V)) : Unit × List (String × V) :=
  ((), put key value (if limit ≤ memo.length then [] else memo))

/-- A full memo forgets its oldest entry, and a key may stand in it twice. -/
def setRecent (limit : Nat) (key : String) (value : V) (memo : List (String × V)) : Unit × List (String × V) :=
  ((), (if limit ≤ memo.length then memo.tail else memo) ++ [(key, value)])

/-- A plain memo keeps all it learns. -/
def setPlain (key : String) (value : V) (memo : List (String × V)) : Unit × List (String × V) :=
  ((), put key value memo)

def getPlain (key : String) (memo : List (String × V)) : Option V × List (String × V) := (memo.lookup key, memo)

variable {good : String → V → Prop} {memo : List (String × V)} {key : String} {value : V} {limit : Nat}

theorem fits_setPlain (holds : Fits good memo) (fitting : good key value) : Fits good (setPlain key value memo).2 :=
  holds.put fitting

theorem fits_setRestarting (holds : Fits good memo) (fitting : good key value) :
    Fits good (setRestarting limit key value memo).2 := by
  apply Fits.put _ fitting
  intro other held member
  split at member
  · cases member
  · exact holds other held member

theorem fits_setRecent (holds : Fits good memo) (fitting : good key value) :
    Fits good (setRecent limit key value memo).2 := by
  intro other held member
  rcases List.mem_append.mp member with old | fresh
  · split at old
    · exact holds other held (List.mem_of_mem_tail old)
    · exact holds other held old
  · cases List.mem_singleton.mp fresh
    exact fitting

end Bounded

end Codegraph.Resolve
