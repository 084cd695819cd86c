import Mathlib.Data.List.Nodup
import Codegraph.Library.RecencyLists

/- This file models the bounded memo of files, whose clock gives each entry that was used a second chance. -/

namespace Codegraph.Resolve
open Caching RecencyLists

structure MemoEntry (ν : Type) where
  value : Option ν
  recentlyUsed : Bool

def MemoEntry.new {ν : Type} : MemoEntry ν := ⟨none, true⟩

structure BoundedFileMemo (ν : Type) where
  maxEntries : Nat
  positive : 0 < maxEntries
  entries : List (String × MemoEntry ν)
  order : List String

/-- What happens to a key: a call for it, the hand that passes it and takes its access bit, and its eviction. -/
inductive ClockEvent
  | accessed (key : String)
  | passed (key : String)
  | evicted (key : String)
  deriving DecidableEq

section Clock

variable {ν : Type} {entries : List (String × MemoEntry ν)}

/-- How many entries have their access bit set. -/
def usedEntries (entries : List (String × MemoEntry ν)) : Nat := entries.countP fun entry => entry.2.recentlyUsed

theorem usedEntries_drop_le (key : String) (entries : List (String × MemoEntry ν)) :
    usedEntries (drop key entries) ≤ usedEntries entries :=
  List.Sublist.countP_le List.filter_sublist

theorem usedEntries_drop_lt {key : String} {entry : MemoEntry ν} (member : (key, entry) ∈ entries)
    (used : entry.recentlyUsed = true) : usedEntries (drop key entries) < usedEntries entries := by
  obtain ⟨before, after, rfl⟩ := List.append_of_mem member
  have left := usedEntries_drop_le key before
  have right := usedEntries_drop_le key after
  have shape : drop key (before ++ (key, entry) :: after) = drop key before ++ drop key after := by
    rw [drop, List.filter_append, List.filter_cons_of_neg (by simp)]
    rfl
  rw [shape]
  simp only [usedEntries, List.countP_append, List.countP_cons, used, if_true] at left right ⊢
  omega

namespace BoundedFileMemo

def new (maxEntries : Nat) : Option (BoundedFileMemo ν) :=
  if positive : 0 < maxEntries then some ⟨maxEntries, positive, [], []⟩ else none

/-- The hand goes on until there is room. Each of its turns takes an access bit or shortens the queue, so that it
comes to an end. -/
def makeRoom (memo : BoundedFileMemo ν) : List ClockEvent × BoundedFileMemo ν :=
  if memo.entries.length < memo.maxEntries then ([], memo)
  else
    match _queue : memo.order with
    | [] => (memo.entries.map fun entry => .evicted entry.1, { memo with entries := [] })
    | oldest :: rest =>
      match _found : memo.entries.lookup oldest with
      | none => makeRoom { memo with order := rest }
      | some entry =>
        if _used : entry.recentlyUsed = true then
          let turned := makeRoom { memo with
            entries := put oldest { entry with recentlyUsed := false } memo.entries
            order := rest ++ [oldest] }
          (.passed oldest :: turned.1, turned.2)
        else
          let turned := makeRoom { memo with entries := drop oldest memo.entries, order := rest }
          (.evicted oldest :: turned.1, turned.2)
  termination_by usedEntries memo.entries + memo.order.length
  decreasing_by
  · simp [_queue]
  · have fewer := usedEntries_drop_lt (mem_of_lookup _found) _used
    have counted : usedEntries (put oldest { entry with recentlyUsed := false } memo.entries) =
      usedEntries (drop oldest memo.entries) := by
      simp [usedEntries, put, drop]
    simp only [_queue, counted, List.length_append, List.length_cons, List.length_nil]
    omega
  · have fewer := usedEntries_drop_le oldest memo.entries
    simp only [_queue, List.length_cons]
    omega

/-- The value of a key, what happened on the way to it, and the memo behind the call. One caller at a time finds under
the second lock what it found under the first one. -/
def getOrInit (init : String → ν) (memo : BoundedFileMemo ν) (key : String) : ν × List ClockEvent × BoundedFileMemo ν :=
  let held : List ClockEvent × MemoEntry ν × BoundedFileMemo ν :=
    match memo.entries.lookup key with
    | some entry => ([], { entry with recentlyUsed := true }, memo)
    | none =>
      let roomy := makeRoom memo
      (roomy.1, .new, { roomy.2 with order := roomy.2.order ++ [key] })
  let value := held.2.1.value.getD (init key)
  (value, held.1 ++ [.accessed key],
    { held.2.2 with entries := put key { held.2.1 with value := some value } held.2.2.entries })

/-- One call, with the events of all calls so far. -/
def step (init : String → ν) (past : List ClockEvent × BoundedFileMemo ν) (key : String) :
    ν × List ClockEvent × BoundedFileMemo ν :=
  let call := getOrInit init past.2 key
  (call.1, past.1 ++ call.2.1, call.2.2)

end BoundedFileMemo

/-- The hand has passed a key, and no call has used the key since. -/
def PassedSinceAccess (log : List ClockEvent) (key : String) : Prop :=
  ∃ early late, log = early ++ .passed key :: late ∧ .accessed key ∉ late

/-- Every key that was evicted had not been used since the hand passed it. -/
def EvictedFairly (log : List ClockEvent) : Prop :=
  ∀ early key late, log = early ++ .evicted key :: late → PassedSinceAccess early key

/-- The queue holds each key of the memo once, all values are those of their keys, and an entry without its access bit
was passed by the hand. -/
structure Clocked (init : String → ν) (log : List ClockEvent) (memo : BoundedFileMemo ν) : Prop where
  once : memo.order.Nodup
  queued : memo.order.Perm (memo.entries.map Prod.fst)
  bounded : memo.entries.length ≤ memo.maxEntries
  filled : ∀ key entry, (key, entry) ∈ memo.entries → entry.value = some (init key)
  passed : ∀ key entry, (key, entry) ∈ memo.entries → entry.recentlyUsed = false → PassedSinceAccess log key
  fair : EvictedFairly log

variable {init : String → ν} {log events : List ClockEvent} {memo : BoundedFileMemo ν} {key oldest : String}
  {rest : List String} {event : ClockEvent} {entry : MemoEntry ν}

theorem PassedSinceAccess.later (passed : PassedSinceAccess log key) (other : event ≠ .accessed key) :
    PassedSinceAccess (log ++ [event]) key := by
  obtain ⟨early, late, rfl, free⟩ := passed
  refine ⟨early, late ++ [event], by simp, fun member => ?_⟩
  rcases List.mem_append.mp member with before | last
  · exact free before
  · exact other (List.mem_singleton.mp last).symm

theorem passedSinceAccess_last (log : List ClockEvent) (key : String) :
    PassedSinceAccess (log ++ [.passed key]) key := ⟨log, [], rfl, List.not_mem_nil⟩

theorem EvictedFairly.later (fair : EvictedFairly log)
    (last : ∀ key, event = .evicted key → PassedSinceAccess log key) : EvictedFairly (log ++ [event]) := by
  intro early key late shape
  rcases List.eq_nil_or_concat late with rfl | ⟨late, final, rfl⟩
  · obtain ⟨rfl, same⟩ := List.append_inj' shape rfl
    exact last key (List.cons.inj same).1
  · rw [List.concat_eq_append, ← List.cons_append, ← List.append_assoc] at shape
    obtain ⟨same, -⟩ := List.append_inj' shape rfl
    exact fair early key late same

theorem Clocked.distinct (clocked : Clocked init log memo) : (memo.entries.map Prod.fst).Nodup :=
  clocked.queued.nodup_iff.mp clocked.once

/-- The keys of a table are one of them and the keys without it. -/
theorem keys_perm (distinct : (entries.map Prod.fst).Nodup) (found : entries.lookup key = some entry) :
    (entries.map Prod.fst).Perm (key :: (drop key entries).map Prod.fst) := by
  have erased : (drop key entries).map Prod.fst = (entries.map Prod.fst).erase key := by
    rw [distinct.erase_eq_filter, List.filter_map]
    refine congrArg _ (List.filter_congr fun entry _ => ?_)
    by_cases same : entry.1 = key <;> simp [same]
  rw [erased]
  exact List.perm_cons_erase (List.mem_map_of_mem (mem_of_lookup found))

theorem mem_put {other : String} {held : MemoEntry ν} (member : (other, held) ∈ put key entry entries) :
    other = key ∧ held = entry ∨ other ≠ key ∧ (other, held) ∈ entries := by
  rcases List.mem_cons.mp member with same | later
  · exact .inl (Prod.mk.inj same)
  · obtain ⟨inside, apart⟩ := List.mem_filter.mp later
    exact .inr ⟨of_decide_eq_true apart, inside⟩

/-- What is left of the queue holds the keys that are left. -/
theorem Clocked.rest_perm (clocked : Clocked init log memo) (queue : memo.order = oldest :: rest)
    (found : memo.entries.lookup oldest = some entry) : rest.Perm ((drop oldest memo.entries).map Prod.fst) :=
  (List.perm_cons oldest).mp ((queue ▸ clocked.queued).trans (keys_perm clocked.distinct found))

/-- The hand passes an entry that was used, and its key goes to the end of the queue. -/
theorem Clocked.pass (clocked : Clocked init log memo) (queue : memo.order = oldest :: rest)
    (found : memo.entries.lookup oldest = some entry) : Clocked init (log ++ [.passed oldest]) { memo with
      entries := put oldest { entry with recentlyUsed := false } memo.entries
      order := rest ++ [oldest] } := by
  have turned : (rest ++ [oldest]).Perm memo.order := queue ▸ List.perm_append_singleton oldest rest
  have keys := clocked.rest_perm queue found
  refine ⟨turned.nodup_iff.mpr clocked.once, ?_, ?_, ?_, ?_, ?_⟩
  · exact (List.perm_append_singleton oldest rest).trans (keys.cons oldest)
  · have size := (keys_perm clocked.distinct found).length_eq
    rw [List.length_map, List.length_cons, List.length_map] at size
    exact Nat.le_trans (Nat.le_of_eq size.symm) clocked.bounded
  · intro key held member
    rcases mem_put member with ⟨rfl, rfl⟩ | ⟨-, inside⟩
    · exact clocked.filled key entry (mem_of_lookup found)
    · exact clocked.filled key held inside
  · intro key held member unused
    rcases mem_put member with ⟨rfl, rfl⟩ | ⟨-, inside⟩
    · exact passedSinceAccess_last log key
    · exact (clocked.passed key held inside unused).later (by simp)
  · exact clocked.fair.later (by simp)

/-- The hand evicts an entry that was not used since it passed. -/
theorem Clocked.evict (clocked : Clocked init log memo) (queue : memo.order = oldest :: rest)
    (found : memo.entries.lookup oldest = some entry) (unused : entry.recentlyUsed = false) :
    Clocked init (log ++ [.evicted oldest]) { memo with entries := drop oldest memo.entries, order := rest } := by
  have sublist : (drop oldest memo.entries).Sublist memo.entries := List.filter_sublist
  refine ⟨?_, clocked.rest_perm queue found, Nat.le_trans sublist.length_le clocked.bounded, ?_, ?_, ?_⟩
  · exact (List.nodup_cons.mp (queue ▸ clocked.once)).2
  · exact fun key held member => clocked.filled key held (sublist.subset member)
  · exact fun key held member unused => (clocked.passed key held (sublist.subset member) unused).later (by simp)
  · refine clocked.fair.later fun key same => ?_
    obtain rfl := ClockEvent.evicted.inj same
    exact clocked.passed oldest entry (mem_of_lookup found) unused

/-- The queue is not empty while the memo is full, and each of its keys is in the memo. -/
theorem Clocked.found_of_full (clocked : Clocked init log memo) (full : ¬ memo.entries.length < memo.maxEntries) :
    ∃ oldest rest entry, memo.order = oldest :: rest ∧ memo.entries.lookup oldest = some entry := by
  have size := clocked.queued.length_eq
  rw [List.length_map] at size
  cases queue : memo.order with
  | nil =>
    rw [queue, List.length_nil] at size
    exact absurd (size ▸ memo.positive) full
  | cons oldest rest =>
    have member : oldest ∈ memo.entries.map Prod.fst := clocked.queued.subset (queue ▸ List.mem_cons_self)
    obtain ⟨⟨_, entry⟩, inside, rfl⟩ := List.mem_map.mp member
    exact ⟨_, rest, entry, rfl, (lookup_iff_mem clocked.distinct).mpr inside⟩

theorem makeRoom_of_room (room : memo.entries.length < memo.maxEntries) : memo.makeRoom = ([], memo) := by
  rw [BoundedFileMemo.makeRoom, if_pos room]

/-- A used oldest entry is passed over and marked unused. -/
theorem makeRoom_of_used (full : ¬ memo.entries.length < memo.maxEntries) (queue : memo.order = oldest :: rest)
    (found : memo.entries.lookup oldest = some entry) (used : entry.recentlyUsed = true) : memo.makeRoom =
      (.passed oldest :: (BoundedFileMemo.makeRoom { memo with
        entries := put oldest { entry with recentlyUsed := false } memo.entries
        order := rest ++ [oldest] }).1,
      (BoundedFileMemo.makeRoom { memo with
        entries := put oldest { entry with recentlyUsed := false } memo.entries
        order := rest ++ [oldest] }).2) := by
  rw [BoundedFileMemo.makeRoom, if_neg full]
  split
  · simp_all
  · obtain ⟨rfl, rfl⟩ := List.cons.inj (queue.symm.trans ‹_›)
    split
    · simp_all
    · obtain rfl := Option.some.inj (found.symm.trans ‹_›)
      rw [dif_pos used]

theorem makeRoom_of_unused (full : ¬ memo.entries.length < memo.maxEntries) (queue : memo.order = oldest :: rest)
    (found : memo.entries.lookup oldest = some entry) (unused : entry.recentlyUsed = false) : memo.makeRoom =
      (.evicted oldest :: (BoundedFileMemo.makeRoom { memo with entries := drop oldest memo.entries, order := rest }).1,
      (BoundedFileMemo.makeRoom { memo with entries := drop oldest memo.entries, order := rest }).2) := by
  rw [BoundedFileMemo.makeRoom, if_neg full]
  split
  · simp_all
  · obtain ⟨rfl, rfl⟩ := List.cons.inj (queue.symm.trans ‹_›)
    split
    · simp_all
    · obtain rfl := Option.some.inj (found.symm.trans ‹_›)
      rw [dif_neg (by simp [unused])]

/-- What the hand leaves behind: room for one entry, and no other key than before. Everything that left was evicted. -/
structure MakesRoom (init : String → ν) (log : List ClockEvent) (memo : BoundedFileMemo ν) : Prop where
  clocked : Clocked init (log ++ memo.makeRoom.1) memo.makeRoom.2
  limit : memo.makeRoom.2.maxEntries = memo.maxEntries
  room : memo.makeRoom.2.entries.length < memo.maxEntries
  evicted : ∀ key, memo.makeRoom.2.entries.lookup key = none →
    memo.entries.lookup key = none ∨ .evicted key ∈ memo.makeRoom.1
  absent : ∀ key, memo.entries.lookup key = none → memo.makeRoom.2.entries.lookup key = none

/-- The hand makes room for one more entry and keeps the clock. -/
theorem Clocked.makesRoom (clocked : Clocked init log memo) : MakesRoom init log memo := by
  induction memo using BoundedFileMemo.makeRoom.induct generalizing log with
  | case1 memo room =>
    have same := makeRoom_of_room room
    refine ⟨?_, ?_, ?_, ?_, ?_⟩ <;> rw [same]
    · rwa [List.append_nil]
    · exact room
    · exact fun key none_ => .inl none_
    · exact fun key none_ => none_
  | case2 memo full queue =>
    obtain ⟨oldest, rest, entry, some_, -⟩ := clocked.found_of_full full
    rw [queue] at some_
    cases some_
  | case3 memo full oldest rest queue missing ih =>
    obtain ⟨_, _, entry, some_, found⟩ := clocked.found_of_full full
    rw [queue] at some_
    obtain ⟨rfl, rfl⟩ := List.cons.inj some_
    rw [missing] at found
    cases found
  | case4 memo full oldest rest queue entry found used ih =>
    obtain ⟨clocked', limit, room, evicted, absent⟩ := ih (clocked.pass queue found)
    have same := makeRoom_of_used full queue found used
    have apart {key : String} (none_ : memo.entries.lookup key = none) : key ≠ oldest := by
      rintro rfl
      rw [none_] at found
      cases found
    refine ⟨?_, ?_, ?_, ?_, ?_⟩ <;> rw [same]
    · rw [List.append_cons]
      exact clocked'
    · exact limit
    · exact room
    · intro key none_
      rcases evicted key none_ with before | event
      · rw [lookup_put] at before
        split_ifs at before
        exact .inl before
      · exact .inr (List.mem_cons_of_mem _ event)
    · intro key none_
      refine absent key ?_
      rw [lookup_put, if_neg (apart none_)]
      exact none_
  | case5 memo full oldest rest queue entry found unused ih =>
    have unused' := Bool.eq_false_iff.mpr unused
    obtain ⟨clocked', limit, room, evicted, absent⟩ := ih (clocked.evict queue found unused')
    have same := makeRoom_of_unused full queue found unused'
    refine ⟨?_, ?_, ?_, ?_, ?_⟩ <;> rw [same]
    · rw [List.append_cons]
      exact clocked'
    · exact limit
    · exact room
    · intro key none_
      rcases evicted key none_ with before | event
      · by_cases oldest_ : key = oldest
        · exact .inr (oldest_ ▸ List.mem_cons_self)
        · rw [lookup_drop_other oldest_] at before
          exact .inl before
      · exact .inr (List.mem_cons_of_mem _ event)
    · intro key none_
      refine absent key ?_
      by_cases oldest_ : key = oldest
      · rw [oldest_, lookup_drop_self]
      · rw [lookup_drop_other oldest_, none_]

/-- With a key just used, every entry holds the value of its key, and one without its bit was passed. -/
theorem Clocked.used (clocked : Clocked init log memo) {other : String} {held : MemoEntry ν}
    (member : (other, held) ∈ put key ⟨some (init key), true⟩ memo.entries) : held.value = some (init other) ∧
      (held.recentlyUsed = false → PassedSinceAccess (log ++ [.accessed key]) other) := by
  rcases mem_put member with ⟨rfl, rfl⟩ | ⟨apart, inside⟩
  · exact ⟨rfl, nofun⟩
  · exact ⟨clocked.filled other held inside,
      fun unused => (clocked.passed other held inside unused).later fun same =>
        apart (ClockEvent.accessed.inj same).symm⟩

/-- A used key has its bit, and its value is its own. -/
theorem Clocked.hit (clocked : Clocked init log memo) (found : memo.entries.lookup key = some entry) :
    Clocked init (log ++ [.accessed key]) { memo with entries := put key ⟨some (init key), true⟩ memo.entries } := by
  have keys := keys_perm clocked.distinct found
  refine ⟨clocked.once, clocked.queued.trans keys, ?_, fun _ _ member => (clocked.used member).1,
    fun _ _ member => (clocked.used member).2, clocked.fair.later (by simp)⟩
  have size := keys.length_eq
  rw [List.length_map, List.length_cons, List.length_map] at size
  exact Nat.le_trans (Nat.le_of_eq size.symm) clocked.bounded

/-- A new key goes to the end of the queue. -/
theorem Clocked.miss (clocked : Clocked init log memo) (absent : memo.entries.lookup key = none)
    (room : memo.entries.length < memo.maxEntries) : Clocked init (log ++ [.accessed key])
      { memo with entries := put key ⟨some (init key), true⟩ memo.entries, order := memo.order ++ [key] } := by
  have kept : drop key memo.entries = memo.entries := drop_of_absent absent
  have fresh : key ∉ memo.order := by
    intro member
    obtain ⟨⟨_, entry⟩, inside, rfl⟩ := List.mem_map.mp (clocked.queued.subset member)
    rw [(lookup_iff_mem clocked.distinct).mpr inside] at absent
    cases absent
  have shape : put key (⟨some (init key), true⟩ : MemoEntry ν) memo.entries = (key, ⟨some (init key), true⟩) ::
    memo.entries :=
    congrArg (List.cons _) kept
  refine ⟨?_, ?_, ?_, fun _ _ member => (clocked.used member).1, fun _ _ member => (clocked.used member).2,
    clocked.fair.later (by simp)⟩
  · exact ((List.perm_append_singleton key memo.order).nodup_iff).mpr (List.nodup_cons.mpr ⟨fresh, clocked.once⟩)
  · rw [shape]
    exact (List.perm_append_singleton key memo.order).trans (clocked.queued.cons key)
  · rw [shape]
    exact room

/-- A call answers with the value of its key, and a key that is gone behind it was evicted in it. -/
theorem Clocked.getOrInit (clocked : Clocked init log memo) (key : String) :
    (memo.getOrInit init key).1 = init key ∧ Clocked init (log ++ (memo.getOrInit init key).2.1)
    (memo.getOrInit init key).2.2 ∧
      (memo.getOrInit init key).2.2.maxEntries = memo.maxEntries ∧
      ∀ other, (memo.entries.lookup other).isSome = true →
        ((memo.getOrInit init key).2.2.entries.lookup other).isSome = false →
        .evicted other ∈ (memo.getOrInit init key).2.1 := by
  rw [BoundedFileMemo.getOrInit]
  cases found : memo.entries.lookup key with
  | some entry =>
    have value : entry.value = some (init key) := clocked.filled key entry (mem_of_lookup found)
    dsimp only
    rw [value]
    refine ⟨rfl, clocked.hit found, rfl, fun other present gone => ?_⟩
    rw [lookup_put] at gone
    split_ifs at gone
    · cases gone
    · rw [present] at gone
      cases gone
  | none =>
    obtain ⟨clocked', limit, room, evicted, absent⟩ := clocked.makesRoom
    dsimp only [MemoEntry.new]
    rw [← List.append_assoc]
    refine ⟨rfl, clocked'.miss (absent key found) (limit ▸ room), limit, fun other present gone => ?_⟩
    rw [lookup_put] at gone
    split_ifs at gone
    · cases gone
    · rw [Option.isSome_eq_false_iff, Option.isNone_iff_eq_none] at gone
      rcases evicted other gone with before | event
      · rw [before] at present
        cases present
      · exact List.mem_append_left _ event

theorem new_clocked {limit : Nat} (init : String → ν) (created : BoundedFileMemo.new limit = some memo) :
    Clocked init [] memo ∧ memo.maxEntries = limit := by
  rw [BoundedFileMemo.new] at created
  split_ifs at created
  obtain rfl := Option.some.inj created
  exact ⟨⟨List.nodup_nil, .nil, Nat.zero_le _, by simp, by simp, by simp [EvictedFairly]⟩, rfl⟩

/-- Every call of a run answers with the value of its key, and the memo stays clocked. -/
theorem run_clocked {limit : Nat} (init : String → ν) (created : BoundedFileMemo.new limit = some memo)
    (calls : List String) : (transcript (BoundedFileMemo.step init) ([], memo) calls).1 = calls.map init ∧
      Clocked init (transcript (BoundedFileMemo.step init) ([], memo) calls).2.1
        (transcript (BoundedFileMemo.step init) ([], memo) calls).2.2 ∧
      (transcript (BoundedFileMemo.step init) ([], memo) calls).2.2.maxEntries = limit := by
  induction calls using List.reverseRecOn with
  | nil => exact ⟨rfl, new_clocked init created⟩
  | append_singleton calls key ih =>
    obtain ⟨answers, clocked, bound⟩ := ih
    obtain ⟨answer, clocked', bound', -⟩ := clocked.getOrInit key
    rw [transcript_concat, answers, List.map_append]
    exact ⟨congrArg (calls.map init ++ [·]) answer, clocked', bound'.trans bound⟩

/-- Through any calls each answer is the value of its key, the memo stays within its limit, its queue holds each of
its keys once, and a key leaves only when it was not used since the hand passed it. -/
theorem bounded_file_memo_keeps {limit : Nat} (init : String → ν) (created : BoundedFileMemo.new limit = some memo)
    (calls : List String) : let run := transcript (BoundedFileMemo.step init) ([], memo) calls
    run.1 = calls.map init ∧ run.2.2.entries.length ≤ limit ∧
      run.2.2.order.Nodup ∧ (∀ key, key ∈ run.2.2.order ↔ (run.2.2.entries.lookup key).isSome = true) ∧
      (∀ early key late, run.2.1 = early ++ .evicted key :: late → PassedSinceAccess early key) ∧
      ∀ next other, (run.2.2.entries.lookup other).isSome = true →
        ((run.2.2.getOrInit init next).2.2.entries.lookup other).isSome = false →
        .evicted other ∈ (run.2.2.getOrInit init next).2.1 := by
  intro run
  obtain ⟨answers, clocked, bound⟩ := run_clocked init created calls
  refine ⟨answers, bound ▸ clocked.bounded, clocked.once, fun key => ?_, clocked.fair,
    fun next => (clocked.getOrInit next).2.2.2⟩
  rw [clocked.queued.mem_iff, Option.isSome_iff_exists]
  constructor
  · intro member
    obtain ⟨⟨_, entry⟩, inside, rfl⟩ := List.mem_map.mp member
    exact ⟨entry, (lookup_iff_mem clocked.distinct).mpr inside⟩
  · rintro ⟨entry, found⟩
    exact List.mem_map_of_mem (mem_of_lookup found)

/-- A memo of two entries that is asked for three keys. -/
theorem bounded_file_memo_keeps_pair :
    (transcript (BoundedFileMemo.step String.length) ([], ⟨2, by decide, [], []⟩) ["a", "bb", "ccc", "a"]).1 =
    [1, 2, 3, 1] :=
  (bounded_file_memo_keeps String.length
    (rfl : BoundedFileMemo.new 2 = some ⟨2, by decide, [], []⟩) ["a", "bb", "ccc", "a"]).1.trans (by decide)

end Clock

end Codegraph.Resolve
