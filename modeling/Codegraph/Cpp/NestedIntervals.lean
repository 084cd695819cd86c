import Mathlib.Data.List.Basic
import Mathlib.Data.List.TakeWhile

/- This file holds intervals that nest properly, and it finds those that hold an offset. -/

namespace Codegraph.Cpp
open List

variable {T : Type}

/-- One place of the vectors of the openings, the closings, the parents and the values. -/
structure IntervalRow (T : Type) where
  open_ : Nat
  close : Nat
  parent : Option Nat
  value : T
  deriving DecidableEq

/-- The rows stand in the order of their openings, and each parent stands before its children. -/
structure NestedIntervals (T : Type) where
  rows : List (IntervalRow T)
  increasing : rows.Pairwise fun first second => first.open_ < second.open_
  earlier : ∀ (k : Nat) (row : IntervalRow T) (parent : Nat), rows[k]? = some row → row.parent = some parent →
    parent < k

namespace NestedIntervals

def default : NestedIntervals T where
  rows := []
  increasing := .nil
  earlier _ _ _ found := by simp at found

variable (intervals : NestedIntervals T) (offset : Nat) {k : Nat} {row : IntervalRow T}

/-- The first of a row and its parents that closes after the offset. -/
def climb (k : Nat) : Option Nat :=
  match _ : intervals.rows[k]? with
  | none => none
  | some row =>
    if row.close > offset then some k
    else
      match _ : row.parent with
      | none => none
      | some parent => climb parent
termination_by k
decreasing_by exact intervals.earlier k row parent ‹_› ‹_›

/-- How many rows open before the offset. -/
def partitionPoint : Nat := (intervals.rows.takeWhile fun row => row.open_ < offset).length

/-- The last row that opens before the offset, or else one of the rows around it. -/
def innermost : Option Nat :=
  match intervals.partitionPoint offset with
  | 0 => none
  | k + 1 => intervals.climb offset k

/-- The values of a row and its parents. -/
def valuesFrom (k : Nat) : List T :=
  match _ : intervals.rows[k]? with
  | none => []
  | some row =>
    row.value ::
      match _ : row.parent with
      | none => []
      | some parent => valuesFrom parent
termination_by k
decreasing_by exact intervals.earlier k row parent ‹_› ‹_›

/-- The values of the intervals that hold the offset, the outermost first. -/
def at_ : List T :=
  match intervals.innermost offset with
  | none => []
  | some k => (intervals.valuesFrom k).reverse

variable {intervals offset}

theorem climb_lt {found : Nat} (climbed : intervals.climb offset k = some found) : found < intervals.rows.length := by
  fun_induction climb intervals offset k with
  | case1 => cases climbed
  | case2 k row stored =>
    cases climbed
    exact (List.getElem?_eq_some_iff.mp stored).choose
  | case3 => cases climbed
  | case4 k row stored _ parent linked ih => exact ih climbed

theorem innermost_lt {found : Nat} (inner : intervals.innermost offset = some found) :
    found < intervals.rows.length := by
  unfold innermost at inner
  split at inner
  · cases inner
  · exact climb_lt inner

/-- A new row opens behind the others and has one of them as its parent. -/
def push (intervals : NestedIntervals T) (open_ close : Nat) (value : T)
    (behind : ¬ intervals.rows.getLast?.any (fun last => open_ ≤ last.open_) = true) : NestedIntervals T where
  rows := intervals.rows ++ [⟨open_, close, intervals.innermost open_, value⟩]
  increasing := by
    refine List.pairwise_append.mpr ⟨intervals.increasing, List.pairwise_singleton _ _, ?_⟩
    intro first listed second new
    rw [List.mem_singleton.mp new]
    obtain ⟨front, last, whole⟩ := List.eq_nil_or_concat' intervals.rows |>.resolve_left (List.ne_nil_of_mem listed)
    have ends : intervals.rows.getLast? = some last := by rw [whole, List.getLast?_append_of_ne_nil _ (by simp)]; rfl
    have below : last.open_ < open_ := by simpa [ends] using behind
    have ordered := intervals.increasing
    rw [whole, List.pairwise_append] at ordered
    rw [whole, List.mem_append] at listed
    rcases listed with early | late
    · exact (ordered.2.2 first early last (List.mem_singleton_self _)).trans below
    · rw [List.mem_singleton.mp late]
      exact below
  earlier := by
    intro k row parent stored linked
    by_cases old : k < intervals.rows.length
    · rw [List.getElem?_append_left old] at stored
      exact intervals.earlier k row parent stored linked
    · rw [List.getElem?_append_right (Nat.le_of_not_lt old)] at stored
      obtain ⟨_, same⟩ := List.getElem?_eq_some_iff.mp stored
      rw [List.getElem_singleton] at same
      rw [← same] at linked
      have inside := innermost_lt linked
      omega

/-- An interval that opens before the last one, or crosses one that holds it, is refused. -/
def add (intervals : NestedIntervals T) (open_ close : Nat) (value : T) : NestedIntervals T × Bool :=
  if close ≤ open_ then (intervals, false)
  else if behind : intervals.rows.getLast?.any (fun last => open_ ≤ last.open_) = true then (intervals, false)
  else if (intervals.innermost open_).any (fun parent => intervals.rows[parent]?.any fun row => close ≥ row.close) then
    (intervals, false)
  else (intervals.push open_ close value behind, true)

/-- The last row below a bound that closes after an offset, or none when no such row does. -/
def Last (intervals : NestedIntervals T) (offset bound : Nat) : Option Nat → Prop
  | none => ∀ (j : Nat) (row : IntervalRow T), j < bound → intervals.rows[j]? = some row → row.close ≤ offset
  | some k => (k < bound ∧ ∃ row, intervals.rows[k]? = some row ∧ offset < row.close) ∧
      ∀ (j : Nat) (row : IntervalRow T), k < j → j < bound → intervals.rows[j]? = some row → row.close ≤ offset

/-- Each parent is the last row before its child that closes after the child opens, and it closes after the child. -/
structure Nested (intervals : NestedIntervals T) : Prop where
  linked : ∀ (k : Nat) (row : IntervalRow T), intervals.rows[k]? = some row → intervals.Last row.open_ k row.parent
  tight : ∀ (k : Nat) (row : IntervalRow T) (parent : Nat) (around : IntervalRow T), intervals.rows[k]? = some row →
    row.parent = some parent → intervals.rows[parent]? = some around → row.close < around.close

/-- Raising the offset to one that a row does not hold keeps the last row among those before it. -/
theorem Last.below {inner bound : Nat} {found : Option Nat} (last : intervals.Last inner bound found)
    (raised : inner ≤ offset) : (found = none → intervals.Last offset bound none) ∧
      ∀ k, found = some k → ∀ result, intervals.Last offset (k + 1) result → intervals.Last offset bound result := by
  constructor
  · rintro rfl j row below stored
    exact (last j row below stored).trans raised
  · rintro k rfl result smaller
    obtain ⟨⟨within, -⟩, above⟩ := last
    cases result with
    | none =>
      intro j row below stored
      by_cases early : j < k + 1
      · exact smaller j row early stored
      · exact (above j row (by omega) below stored).trans raised
    | some m =>
      obtain ⟨⟨small, held⟩, rest⟩ := smaller
      refine ⟨⟨by omega, held⟩, ?_⟩
      intro j row after below stored
      by_cases early : j < k + 1
      · exact rest j row after early stored
      · exact (above j row (by omega) below stored).trans raised

/-- An interval that is closed before the offset is not the last one around it. -/
theorem Last.widen {result : Option Nat} (last : intervals.Last offset k result)
    (stored : intervals.rows[k]? = some row) (closed : row.close ≤ offset) : intervals.Last offset (k + 1) result := by
  have skip (j : Nat) (other : IntervalRow T) (found : intervals.rows[j]? = some other) (same : j = k) :
      other.close ≤ offset := by
    rw [same, stored] at found
    exact Option.some.inj found ▸ closed
  cases result with
  | none =>
    intro j other below found
    rcases Nat.lt_succ_iff_lt_or_eq.mp below with early | same
    · exact last j other early found
    · exact skip j other found same
  | some m =>
    obtain ⟨⟨within, held⟩, above⟩ := last
    refine ⟨⟨by omega, held⟩, ?_⟩
    intro j other after below found
    rcases Nat.lt_succ_iff_lt_or_eq.mp below with early | same
    · exact above j other after early found
    · exact skip j other found same

theorem opens_lt {j : Nat} {first second : IntervalRow T} (below : j < k) (early : intervals.rows[j]? = some first)
    (late : intervals.rows[k]? = some second) : first.open_ < second.open_ := by
  obtain ⟨inside, rfl⟩ := List.getElem?_eq_some_iff.mp early
  obtain ⟨within, rfl⟩ := List.getElem?_eq_some_iff.mp late
  exact pairwise_iff_getElem.mp intervals.increasing j k inside within below

/-- From a row that opens before the offset, the climb ends on the last row up to it that closes after the offset. -/
theorem Nested.climb_last (nested : Nested intervals) (stored : intervals.rows[k]? = some row)
    (opens : row.open_ < offset) : intervals.Last offset (k + 1) (intervals.climb offset k) := by
  fun_induction climb intervals offset k generalizing row with
  | case1 k missing =>
    rw [missing] at stored
    cases stored
  | case2 k found_ found holds =>
    exact ⟨⟨Nat.lt_succ_self k, found_, found, holds⟩, fun j other after below => absurd below (by omega)⟩
  | case3 k found_ found closed root =>
    obtain rfl := Option.some.inj (found.symm.trans stored)
    have last := nested.linked k found_ found
    exact ((last.below opens.le).1 root).widen found (Nat.le_of_not_lt closed)
  | case4 k found_ found closed parent linked ih =>
    obtain rfl := Option.some.inj (found.symm.trans stored)
    have last := nested.linked k found_ found
    have inside := last
    rw [linked] at inside
    obtain ⟨⟨before, around, held, -⟩, -⟩ := inside
    have climbed := ih held ((opens_lt before held found).trans opens)
    exact ((last.below opens.le).2 parent linked _ climbed).widen found (Nat.le_of_not_lt closed)

theorem takeWhile_opens : intervals.rows.takeWhile (fun row => row.open_ < offset) = intervals.rows.filter fun row =>
    row.open_ < offset := by
  have sorted := intervals.increasing
  generalize intervals.rows = rows at sorted ⊢
  induction rows with
  | nil => rfl
  | cons row rest ih =>
    obtain ⟨first, later⟩ := pairwise_cons.mp sorted
    by_cases opens : row.open_ < offset
    · rw [takeWhile_cons_of_pos (by simpa using opens), filter_cons_of_pos (by simpa using opens), ih later]
    · rw [takeWhile_cons_of_neg (by simpa using opens), filter_cons_of_neg (by simpa using opens)]
      refine (filter_eq_nil_iff.mpr fun other member => ?_).symm
      have after := first other member
      simp only [decide_eq_true_eq]
      omega

/-- The rows that close after the offset lie up to the last one. -/
theorem Last.filter_take {bound m : Nat} (last : intervals.Last offset bound (some m)) :
    (intervals.rows.take bound).filter (fun row => offset < row.close) =
      (intervals.rows.take (m + 1)).filter fun row => offset < row.close := by
  obtain ⟨⟨within, -⟩, above⟩ := last
  have split : intervals.rows.take bound = intervals.rows.take (m + 1) ++
    (intervals.rows.drop (m + 1)).take (bound - (m + 1)) := by
    rw [← take_add, Nat.add_sub_cancel' within]
  rw [split, filter_append, append_right_eq_self, filter_eq_nil_iff]
  intro row member
  obtain ⟨j, inside, rfl⟩ := mem_iff_getElem.mp member
  have short := inside
  rw [length_take, length_drop] at short
  have stored : intervals.rows[m + 1 + j]? = some (((intervals.rows.drop (m + 1)).take (bound - (m + 1)))[j]) := by
    rw [getElem_take, getElem_drop]
    exact getElem?_eq_getElem _
  simpa using above _ _ (by omega) (by omega) stored

theorem Last.filter_none {bound : Nat} (last : intervals.Last offset bound none) :
    (intervals.rows.take bound).filter (fun row => offset < row.close) = [] := by
  rw [filter_eq_nil_iff]
  intro row member
  obtain ⟨j, inside, rfl⟩ := mem_iff_getElem.mp member
  rw [length_take] at inside
  have stored : intervals.rows[j]? = some ((intervals.rows.take bound)[j]) := by
    rw [getElem_take]
    exact getElem?_eq_getElem _
  simpa using last j _ (by omega) stored

/-- The parents of a row that holds the offset are the rows before it that hold it. -/
theorem Nested.valuesFrom_eq (nested : Nested intervals) (stored : intervals.rows[k]? = some row)
    (opens : row.open_ < offset) (closes : offset < row.close) : (intervals.valuesFrom k).reverse =
      ((intervals.rows.take (k + 1)).filter fun row => offset < row.close).map IntervalRow.value := by
  induction k using Nat.strong_induction_on generalizing row with
  | h k ih =>
    have split : intervals.rows.take (k + 1) = intervals.rows.take k ++ [row] := by
      rw [take_add_one, stored]; rfl
    have last := nested.linked k row stored
    rw [split, filter_append, filter_singleton, decide_eq_true closes, map_append, valuesFrom]
    split
    · rename_i missing
      rw [missing] at stored
      cases stored
    rename_i found_ found
    obtain rfl := Option.some.inj (found.symm.trans stored)
    rw [reverse_cons]
    refine congrArg (· ++ [found_.value]) ?_
    split
    · rename_i root
      rw [((last.below opens.le).1 root).filter_none]
      rfl
    · rename_i parent linked
      rw [linked] at last
      obtain ⟨⟨before, around, held, around_⟩, above⟩ := last
      have closesLater := nested.tight k found_ parent around stored linked held
      have inner : intervals.Last offset k (some parent) := by
        refine ⟨⟨before, around, held, closes.trans closesLater⟩, ?_⟩
        intro j other after below listed
        exact (above j other after below listed).trans opens.le
      rw [inner.filter_take]
      exact ih parent before held ((opens_lt before held stored).trans opens) (closes.trans closesLater)

theorem take_partitionPoint :
    intervals.rows.take (intervals.partitionPoint offset) = intervals.rows.filter fun row => row.open_ < offset := by
  rw [← takeWhile_opens]
  exact (prefix_iff_eq_take.mp ( takeWhile_prefix _)).symm

theorem partitionPoint_le : intervals.partitionPoint offset ≤ intervals.rows.length :=
  ( takeWhile_prefix _).length_le

theorem opens_of_lt (stored : intervals.rows[k]? = some row)
    (below : k < intervals.partitionPoint offset) : row.open_ < offset := by
  obtain ⟨inside, rfl⟩ := List.getElem?_eq_some_iff.mp stored
  have member : intervals.rows[k] ∈ intervals.rows.take (intervals.partitionPoint offset) :=
    mem_take_iff_getElem.mpr ⟨k, by omega, rfl⟩
  rw [take_partitionPoint] at member
  simpa using (mem_filter.mp member).2

/-- The innermost interval is the last one that opens before the offset and closes after it. -/
theorem Nested.innermost_last (nested : Nested intervals) :
    intervals.Last offset (intervals.partitionPoint offset) (intervals.innermost offset) := by
  rw [innermost]
  cases point : intervals.partitionPoint offset with
  | zero => exact fun j _ below => absurd below (Nat.not_lt_zero j)
  | succ k =>
    have inside : k < intervals.rows.length := by
      have bound := @partitionPoint_le T intervals offset
      omega
    have stored : intervals.rows[k]? = some intervals.rows[k] := getElem?_eq_getElem inside
    exact nested.climb_last stored (opens_of_lt stored (by omega))

/-- Looking up an offset answers with the intervals that hold it. -/
theorem Nested.at_eq (nested : Nested intervals) : intervals.at_ offset =
    (intervals.rows.filter fun row => row.open_ < offset && offset < row.close).map IntervalRow.value := by
  have both : (intervals.rows.filter fun row => row.open_ < offset && offset < row.close) =
      (intervals.rows.take (intervals.partitionPoint offset)).filter fun row => offset < row.close := by
    rw [take_partitionPoint, filter_filter]
    exact filter_congr fun row _ => Bool.and_comm _ _
  have last := @Nested.innermost_last T intervals offset nested
  rw [both, at_]
  cases inner : intervals.innermost offset with
  | none =>
    rw [inner] at last
    rw [last.filter_none]
    rfl
  | some m =>
    rw [inner] at last
    obtain ⟨⟨within, row, found, closes⟩, -⟩ := id last
    rw [last.filter_take]
    exact nested.valuesFrom_eq found (opens_of_lt found within) closes

/-- Of two rows the second lies behind the first or inside it. -/
theorem Nested.laminar (nested : Nested intervals) :
    intervals.rows.Pairwise fun outer inner => outer.close ≤ inner.open_ ∨ inner.close < outer.close := by
  have each (k : Nat) (inner : IntervalRow T) (stored : intervals.rows[k]? = some inner) :
      ∀ (j : Nat) (outer : IntervalRow T), j < k → intervals.rows[j]? = some outer →
        outer.close ≤ inner.open_ ∨ inner.close < outer.close := by
    induction k using Nat.strong_induction_on generalizing inner with
    | h k ih =>
      intro j outer below listed
      by_cases behind : outer.close ≤ inner.open_
      · exact .inl behind
      have last := nested.linked k inner stored
      cases parent : inner.parent with
      | none =>
        rw [parent] at last
        exact absurd (last j outer below listed) behind
      | some p =>
        rw [parent] at last
        obtain ⟨⟨before, around, held, -⟩, above⟩ := last
        have tight := nested.tight k inner p around stored parent held
        rcases Nat.lt_trichotomy j p with early | rfl | late
        · have opens := opens_lt before held stored
          rcases ih p before around held j outer early listed with apart | inside
          · exact absurd (apart.trans opens.le) behind
          · exact .inr (tight.trans inside)
        · obtain rfl := Option.some.inj (held.symm.trans listed)
          exact .inr tight
        · exact absurd (above j outer late below listed) behind
  rw [pairwise_iff_getElem]
  intro j k first second below
  exact each k _ (getElem?_eq_getElem second) j _ below (getElem?_eq_getElem first)

section Push

variable {open_ close : Nat} {value : T}
  {behind : ¬ intervals.rows.getLast?.any (fun last => open_ ≤ last.open_) = true}

theorem push_getElem? {k : Nat} {row : IntervalRow T}
    (stored : (intervals.push open_ close value behind).rows[k]? = some row) :
    k < intervals.rows.length ∧ intervals.rows[k]? = some row ∨
      k = intervals.rows.length ∧ row = ⟨open_, close, intervals.innermost open_, value⟩ := by
  by_cases old : k < intervals.rows.length
  · rw [push, getElem?_append_left old] at stored
    exact .inl ⟨old, stored⟩
  · rw [push, getElem?_append_right (Nat.le_of_not_lt old)] at stored
    obtain ⟨inside, same⟩ := List.getElem?_eq_some_iff.mp stored
    rw [length_singleton] at inside
    rw [getElem_singleton] at same
    exact .inr ⟨by omega, same.symm⟩

theorem push_getElem?_left {k : Nat} (old : k < intervals.rows.length) :
    (intervals.push open_ close value behind).rows[k]? = intervals.rows[k]? := getElem?_append_left old

theorem Last.push {bound : Nat} {found : Option Nat} (last : intervals.Last offset bound found)
    (within : bound ≤ intervals.rows.length) : (intervals.push open_ close value behind).Last offset bound found := by
  cases found with
  | none =>
    intro j row below stored
    rw [push_getElem?_left (by omega)] at stored
    exact last j row below stored
  | some k =>
    obtain ⟨⟨inside, row, stored, held⟩, above⟩ := last
    refine ⟨⟨inside, row, (push_getElem?_left (by omega)).trans stored, held⟩, ?_⟩
    intro j other after below found
    rw [push_getElem?_left (by omega)] at found
    exact above j other after below found

/-- Every row opens before a new one. -/
theorem partitionPoint_of_behind (behind : ¬ intervals.rows.getLast?.any (fun last => open_ ≤ last.open_) = true) :
    intervals.partitionPoint open_ = intervals.rows.length := by
  rw [partitionPoint, takeWhile_eq_self_iff.mpr]
  intro row listed
  have pushed := (intervals.push open_ open_ row.value behind).increasing
  rw [NestedIntervals.push, pairwise_append] at pushed
  exact decide_eq_true (pushed.2.2 row listed _ (mem_singleton_self _))

/-- A row that closes before the innermost row around it keeps the rows nested. -/
theorem Nested.push (nested : Nested intervals) (fits : ¬ (intervals.innermost open_).any
      (fun parent => intervals.rows[parent]?.any fun row => close ≥ row.close) = true) :
    Nested (intervals.push open_ close value behind) := by
  have last := @Nested.innermost_last T intervals open_ nested
  rw [partitionPoint_of_behind behind] at last
  constructor
  · intro k row stored
    rcases push_getElem? stored with ⟨old, found⟩ | ⟨rfl, rfl⟩
    · exact (nested.linked k row found).push old.le
    · exact last.push le_rfl
  · intro k row parent around stored linked held
    have before := (intervals.push open_ close value behind).earlier k row parent stored linked
    rcases push_getElem? stored with ⟨old, found⟩ | ⟨rfl, rfl⟩
    · rw [push_getElem?_left (by omega)] at held
      exact nested.tight k row parent around found linked held
    · rw [push_getElem?_left before] at held
      have linked : intervals.innermost open_ = some parent := linked
      simpa [linked, held] using fits

end Push

/-- What a call of `add` does: it changes nothing and refuses, or it adds one row that keeps the rows nested. -/
theorem add_cases (intervals : NestedIntervals T) (open_ close : Nat) (value : T) :
    intervals.add open_ close value = (intervals, false) ∨ ((intervals.add open_ close value).2 = true ∧
      (intervals.add open_ close value).1.rows = intervals.rows ++ [⟨open_, close, intervals.innermost open_, value⟩] ∧
      (Nested intervals → Nested (intervals.add open_ close value).1)) := by
  unfold add
  split
  · exact .inl rfl
  split
  · exact .inl rfl
  rename_i behind
  split
  · exact .inl rfl
  · rename_i fits
    exact .inr ⟨rfl, rfl, fun nested => @Nested.push T intervals open_ close value behind nested fits⟩

theorem Nested.default : Nested (default : NestedIntervals T) :=
  ⟨fun _ _ stored => by
    simp [NestedIntervals.default] at stored, fun _ _ _ _ stored => by simp [NestedIntervals.default] at stored⟩

/-- What one call of `add` is given. -/
structure Call (T : Type) where
  open_ : Nat
  close : Nat
  value : T
  deriving DecidableEq

def Call.ofRow (row : IntervalRow T) : Call T := ⟨row.open_, row.close, row.value⟩

def Call.holds (call : Call T) (offset : Nat) : Bool := call.open_ < offset && offset < call.close

/-- The calls one after the other, with the answer to each. -/
def addAll (intervals : NestedIntervals T) : List (Call T) → NestedIntervals T × List Bool
  | [] => (intervals, [])
  | call :: rest =>
    let added := intervals.add call.open_ call.close call.value
    let after := added.1.addAll rest
    (after.1, added.2 :: after.2)

/-- The calls that were answered with true. -/
def accepted (calls : List (Call T)) (answers : List Bool) : List (Call T) :=
  ((calls.zip answers).filter Prod.snd).map Prod.fst

/-- Many calls keep the intervals nested and add the rows that they accept. -/
theorem Nested.addAll (nested : Nested intervals) (calls : List (Call T)) : Nested (intervals.addAll calls).1 ∧
      (intervals.addAll calls).1.rows.map .ofRow =
        intervals.rows.map .ofRow ++ accepted calls (intervals.addAll calls).2 := by
  induction calls generalizing intervals with
  | nil => exact ⟨nested, by simp [NestedIntervals.addAll, accepted]⟩
  | cons call rest ih =>
    simp only [NestedIntervals.addAll]
    rcases intervals.add_cases call.open_ call.close call.value with refused | ⟨added, rows, keeps⟩
    · obtain ⟨still, listed⟩ := ih nested
      rw [refused]
      exact ⟨still, by simpa [accepted] using listed⟩
    · obtain ⟨still, listed⟩ := ih (keeps nested)
      rw [rows] at listed
      refine ⟨still, ?_⟩
      rw [listed, added]
      simp [accepted, Call.ofRow]

/-- However the calls go, the accepted intervals open one behind the other, each pair is disjoint or nested, looking up
an offset answers with those that hold it from the outside in, and a refused call changes nothing. -/
theorem added_intervals_nest (calls : List (Call T)) : let final := ((default : NestedIntervals T).addAll calls).1
    let kept := accepted calls ((default : NestedIntervals T).addAll calls).2
    kept.Pairwise (fun first second => first.open_ < second.open_) ∧
      kept.Pairwise (fun first second => first.close ≤ second.open_ ∨ second.close < first.close) ∧
      (∀ offset, final.at_ offset = (kept.filter (Call.holds · offset)).map Call.value ∧
        (kept.filter (Call.holds · offset)).Pairwise fun outer inner =>
          outer.open_ < inner.open_ ∧ inner.close < outer.close) ∧
      ∀ call : Call T, (final.add call.open_ call.close call.value).2 = false →
        (final.add call.open_ call.close call.value).1 = final := by
  intro final kept
  obtain ⟨nested, rows⟩ := (.default : Nested (default : NestedIntervals T)).addAll calls
  have rows : final.rows.map .ofRow = kept := rows
  have increasing : kept.Pairwise fun first second => first.open_ < second.open_ := by
    rw [← rows, pairwise_map]
    exact final.increasing
  have laminar : kept.Pairwise fun first second => first.close ≤ second.open_ ∨ second.close < first.close := by
    rw [← rows, pairwise_map]
    exact nested.laminar
  refine ⟨increasing, laminar, fun offset => ⟨?_, ?_⟩, ?_⟩
  · rw [nested.at_eq, ← rows, filter_map, map_map]
    rfl
  · have ordered := (increasing.and laminar).filter (Call.holds · offset)
    refine ordered.imp_of_mem fun {outer inner} first second both => ?_
    have outside : outer.open_ < offset ∧ offset < outer.close := by
      simpa [Call.holds] using (mem_filter.mp first).2
    have inside : inner.open_ < offset ∧ offset < inner.close := by
      simpa [Call.holds] using (mem_filter.mp second).2
    exact ⟨both.1, both.2.resolve_left (by omega)⟩
  · intro call refused
    rcases final.add_cases call.open_ call.close call.value with same | ⟨added, -⟩
    · rw [same]
    · rw [added] at refused
      cases refused

end NestedIntervals

end Codegraph.Cpp
