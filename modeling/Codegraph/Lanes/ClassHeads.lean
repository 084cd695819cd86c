import Codegraph.Core.Types
import Codegraph.Lanes.TwoStates
import Codegraph.Library.Worklists
import Mathlib.Data.String.Basic
import Mathlib.Order.ConditionallyCompleteLattice.Basic

/- This file models the supertypes that class heads name and the walks from a class name that a changed head moves. -/

namespace Codegraph.Lanes.Classes

open Codegraph.Core (Language)
open Watch.Scope (Text)
open Worklists List

/-- How many levels up a walk from a class name goes. -/
def walkLevels : Nat := 5

/-- One type declaration and the supertypes that its own head writes. -/
structure HeadEntry where
  language : Language
  name : String
  heads : List String
  deriving DecidableEq

def HeadEntry.le (first second : HeadEntry) : Bool :=
  if first.language ≠ second.language then first.language.asStr < second.language.asStr
  else if first.name ≠ second.name then first.name < second.name
  else first.heads ≤ second.heads

/-- The row of a file sorts its entries. -/
def rowOf : List HeadEntry → Option (List HeadEntry) := sortedRow HeadEntry.le

/-- A type as a walk reads it: its language and its name. -/
abbrev TypeKey := Language × String

def entryKey (entry : HeadEntry) : TypeKey := (entry.language, entry.name)

/-- The refinements of the standard Swift collections. -/
def swiftStdSupers : String → Option (List String)
  | "RandomAccessCollection" => some ["BidirectionalCollection"]
  | "BidirectionalCollection" => some ["Collection"]
  | "MutableCollection" | "RangeReplaceableCollection" => some ["Collection"]
  | "Collection" => some ["Sequence"]
  | "LazySequenceProtocol" => some ["Sequence"]
  | "LazyCollectionProtocol" => some ["Collection", "LazySequenceProtocol"]
  | "StringProtocol" => some ["BidirectionalCollection"]
  | "Array" | "ArraySlice" | "ContiguousArray" =>
    some ["RandomAccessCollection", "MutableCollection", "RangeReplaceableCollection"]
  | "String" | "Substring" => some ["StringProtocol", "RangeReplaceableCollection"]
  | "Dictionary" => some ["Collection"]
  | "Set" => some ["Collection", "SetAlgebra"]
  | "Range" | "ClosedRange" => some ["RandomAccessCollection"]
  | _ => none

/-- The superclasses of the UIKit and AppKit classes. -/
def objcSystemSuper : String → Option String
  | "UIResponder" => some "NSObject"
  | "UIView" | "UIViewController" => some "UIResponder"
  | "UIWindow" => some "UIView"
  | "UIControl" => some "UIView"
  | "UIButton" | "UITextField" | "UISwitch" | "UISlider" | "UISegmentedControl"
  | "UIStepper" | "UIPageControl" | "UIDatePicker" | "UIRefreshControl" => some "UIControl"
  | "UIStackView" | "UINavigationBar" | "UIToolbar" | "UITabBar" | "UISearchBar" | "UIVisualEffectView"
  | "UIActivityIndicatorView" | "UIProgressView" | "UIPickerView" | "UITableViewHeaderFooterView" => some "UIView"
  | "UITableViewController" | "UICollectionViewController" | "UINavigationController" | "UITabBarController"
  | "UIPageViewController" | "UISplitViewController" | "UIAlertController" | "UIHostingController" =>
    some "UIViewController"
  | "UIImageView" | "UILabel" | "UIScrollView" => some "UIView"
  | "UITableView" | "UICollectionView" | "UITextView" => some "UIScrollView"
  | "UITableViewCell" | "UICollectionReusableView" => some "UIView"
  | "UICollectionViewCell" => some "UICollectionReusableView"
  | "MKAnnotationView" | "MKMapView" => some "UIView"
  | "NSResponder" => some "NSObject"
  | "NSView" | "NSViewController" | "NSWindow" => some "NSResponder"
  | "NSControl" => some "NSView"
  | "NSImageView" | "NSButton" | "NSTextField" | "NSTableView" => some "NSControl"
  | _ => none

/-- What the name of a type brings beyond the heads of its declarations. -/
def nameSupertypes (language : Language) (name : String) (written : Bool) : List String :=
  match language with
  | .swift =>
    match swiftStdSupers name with
    | some supers => supers
    | none => (objcSystemSuper name).toList
  | .objC => if written then [] else (objcSystemSuper name).toList
  | _ => []

/-- The supertypes that the declarations of a type give it: their heads and what the name adds. -/
def superKeys (key : TypeKey) (declarations : List HeadEntry) : List TypeKey :=
  let heads := declarations.flatMap (·.heads)
  (heads ++ nameSupertypes key.1 key.2 (!heads.isEmpty)).map (key.1, ·)

section Walks

variable (paths : List Text) (state : Text → List HeadEntry)

/-- The declarations of a type in all files. -/
def declarationsOf (key : TypeKey) : List HeadEntry := paths.flatMap fun path => (state path).filter (entryKey · = key)

/-- A walk steps on from declared types only. -/
def supertypesOf (key : TypeKey) : List TypeKey :=
  let declarations := declarationsOf paths state key
  if declarations.isEmpty then [] else superKeys key declarations

end Walks

/-- What a row holds for a type: the heads of each of its declarations, sorted. -/
def headsByType (row : Option (List HeadEntry)) (key : TypeKey) : List (List String) :=
  (((row.getD []).filter (entryKey · = key)).map (·.heads)).insertionSort (· ≤ ·)

/-- The types whose declarations a changed file's rows move. -/
def seeds (changes : List (Text × Change HeadEntry)) : List TypeKey := Lanes.seeds entryKey headsByType changes

/-- Each type that the rows declare with each supertype a walk reads for it. -/
def up (rows : List (Text × List HeadEntry)) : List (TypeKey × TypeKey) :=
  let entries := rows.flatMap Prod.snd
  (entries.map entryKey).eraseDups.flatMap fun key => (superKeys key (entries.filter (entryKey · = key))).map (key, ·)

def down (rows : List (Text × List HeadEntry)) : List (TypeKey × TypeKey) := (up rows).map Prod.swap

/-- The types whose walk reads a changed head, and the types that such a walk reaches through it. -/
structure ClassHeadRefresh where
  receivers : List TypeKey
  targets : List TypeKey

def classHeadRefresh (sync : Sync HeadEntry) : ClassHeadRefresh :=
  let seeds := seeds (sync.changes rowOf)
  let beforeRows := sync.beforeRows rowOf
  let afterRows := sync.afterRows rowOf
  { receivers := seeds.flatMap fun seed =>
      seed :: [down beforeRows, down afterRows].flatMap fun links => reached links seed (walkLevels - 1)
    targets := seeds.flatMap fun seed => [up beforeRows, up afterRows].flatMap fun links =>
      reached links seed walkLevels }

section Rows

variable {rows : List (Text × List HeadEntry)} {paths : List Text} {state : Text → List HeadEntry} {entry : HeadEntry}
  {key target : TypeKey}

theorem mem_declarationsOf :
    entry ∈ declarationsOf paths state key ↔ (∃ path ∈ paths, entry ∈ state path) ∧ entryKey entry = key := by
  simp only [declarationsOf, mem_flatMap, mem_filter, decide_eq_true_eq]
  constructor
  · rintro ⟨path, known, member, same⟩
    exact ⟨⟨path, known, member⟩, same⟩
  · rintro ⟨⟨path, known, member⟩, same⟩
    exact ⟨path, known, member, same⟩

/-- The supertypes of a type depend on the declarations it has, not on their order. -/
theorem mem_superKeys_congr {declarations others : List HeadEntry}
    (same : ∀ entry, entry ∈ declarations ↔ entry ∈ others) :
    target ∈ superKeys key declarations ↔ target ∈ superKeys key others := by
  have heads (head : String) : head ∈ declarations.flatMap (·.heads) ↔ head ∈ others.flatMap (·.heads) := by
    simp only [mem_flatMap, same]
  have none : (declarations.flatMap (·.heads)).isEmpty = (others.flatMap (·.heads)).isEmpty := by
    rw [Bool.eq_iff_iff, List.isEmpty_iff, List.isEmpty_iff, List.eq_nil_iff_forall_not_mem,
      eq_nil_iff_forall_not_mem]
    simp only [heads]
  simp only [superKeys, none, mem_map, mem_append, heads]

theorem mem_supertypesOf_congr {other : Text → List HeadEntry}
    (same : ∀ entry, entry ∈ declarationsOf paths state key ↔ entry ∈ declarationsOf paths other key) :
    target ∈ supertypesOf paths state key ↔ target ∈ supertypesOf paths other key := by
  have none : (declarationsOf paths state key).isEmpty = (declarationsOf paths other key).isEmpty := by
    rw [Bool.eq_iff_iff, List.isEmpty_iff, List.isEmpty_iff, List.eq_nil_iff_forall_not_mem,
      eq_nil_iff_forall_not_mem]
    simp only [same]
  simp only [supertypesOf, none]
  split
  · rfl
  · exact mem_superKeys_congr same

/-- The links of the rows are the supertypes that a walk reads. -/
theorem mem_up (read : RowsOf rowOf rows paths state) :
    (key, target) ∈ up rows ↔ target ∈ supertypesOf paths state key := by
  have listed (entry : HeadEntry) : entry ∈ (rows.flatMap Prod.snd).filter (entryKey · = key) ↔
    entry ∈ declarationsOf paths state key := by
    rw [mem_declarationsOf, ← read.exists_entry, mem_filter, mem_flatMap, decide_eq_true_eq]
  have declared : key ∈ ((rows.flatMap Prod.snd).map entryKey).eraseDups ↔
    ¬ (declarationsOf paths state key).isEmpty = true := by
    rw [List.isEmpty_iff, List.eq_nil_iff_forall_not_mem, not_forall, List.mem_eraseDups, List.mem_map]
    refine exists_congr fun entry => ?_
    rw [not_not, ← listed, mem_filter, decide_eq_true_eq]
  rw [supertypesOf]
  constructor
  · intro member
    obtain ⟨found, known, named⟩ := mem_flatMap.mp member
    obtain ⟨_, written, same⟩ := mem_map.mp named
    obtain ⟨rfl, rfl⟩ := Prod.mk.inj same
    rw [if_neg (declared.mp known)]
    exact (mem_superKeys_congr listed).mp written
  · intro member
    split at member
    · cases member
    · rename_i known
      have written := (mem_superKeys_congr listed).mpr member
      exact mem_flatMap.mpr ⟨key, declared.mpr known, mem_map.mpr ⟨target, written, rfl⟩⟩

theorem mem_headsByType {declarations : List HeadEntry} {heads : List String} :
    heads ∈ headsByType (rowOf declarations) key ↔ ⟨key.1, key.2, heads⟩ ∈ declarations := by
  rw [headsByType, (perm_insertionSort _ _).mem_iff]
  simp only [mem_map, mem_filter, decide_eq_true_eq, rowOf, mem_sortedRow]
  constructor
  · rintro ⟨entry, ⟨member, rfl⟩, rfl⟩
    exact member
  · intro member
    exact ⟨_, ⟨member, rfl⟩, rfl⟩

theorem headsByType_absent (row : Option (List HeadEntry)) (key : TypeKey) (absent : key ∉ (row.getD []).map entryKey) :
    headsByType row key = [] := by
  have none : (row.getD []).filter (entryKey · = key) = [] := by
    rw [filter_eq_nil_iff]
    intro entry member same
    exact absent (mem_map.mpr ⟨entry, member, of_decide_eq_true same⟩)
  rw [headsByType, none]
  rfl

end Rows

section Movement

variable {sync : Sync HeadEntry} {key target : TypeKey} {entry : HeadEntry}

/-- A name that is no seed has the same declarations before and after the sync. -/
theorem mem_declarationsOf_of_not_seed (unseeded : key ∉ seeds (sync.changes rowOf)) (entry : HeadEntry) :
    entry ∈ declarationsOf sync.paths sync.before key ↔ entry ∈ declarationsOf sync.paths sync.after key := by
  rw [mem_declarationsOf, mem_declarationsOf]
  have one (path : Text) (known : path ∈ sync.paths) (named : entryKey entry = key) :
      entry ∈ sync.before path ↔ entry ∈ sync.after path := by
    subst named
    have same := table_of_not_seed headsByType_absent unseeded known
    rw [show entry = ⟨(entryKey entry).1, (entryKey entry).2, entry.heads⟩ from rfl, ← mem_headsByType, same,
      mem_headsByType]
  constructor
  · rintro ⟨⟨path, known, member⟩, named⟩
    exact ⟨⟨path, known, (one path known named).mp member⟩, named⟩
  · rintro ⟨⟨path, known, member⟩, named⟩
    exact ⟨⟨path, known, (one path known named).mpr member⟩, named⟩

/-- A step of a walk goes from a type to one of its supertypes. -/
abbrev Step (paths : List Text) (state : Text → List HeadEntry) (key target : TypeKey) : Prop :=
  target ∈ supertypesOf paths state key

theorem step_iff_of_not_seed (unseeded : ¬ key ∈ seeds (sync.changes rowOf)) (target : TypeKey) :
    Step sync.paths sync.before key target ↔ Step sync.paths sync.after key target :=
  mem_supertypesOf_congr (mem_declarationsOf_of_not_seed unseeded)

/-- The types that a walk reaches in one to five steps. -/
def reachedTypes (paths : List Text) (state : Text → List HeadEntry) (receiver : TypeKey) : Set TypeKey :=
  {target | ∃ steps, 0 < steps ∧ steps ≤ walkLevels ∧ Breadth.Walk (Step paths state) {receiver} steps target}

/-- Some file declares the type with other heads than before. -/
def HeadsChanged (sync : Sync HeadEntry) (key : TypeKey) : Prop :=
  ∃ path ∈ sync.paths, ¬ (((sync.before path).filter (entryKey · = key)).map (·.heads)).Perm
    (((sync.after path).filter (entryKey · = key)).map (·.heads))

theorem perm_headsByType (declarations : List HeadEntry) :
    (headsByType (rowOf declarations) key).Perm ((declarations.filter (entryKey · = key)).map (·.heads)) := by
  have sorted : ((rowOf declarations).getD []).Perm declarations := by
    rw [rowOf, sortedRow]
    split
    · rename_i none
      have length := (perm_insertionSort (fun first second => HeadEntry.le first second) declarations).length_eq
      rw [isEmpty_iff.mp none] at length
      rw [eq_nil_of_length_eq_zero length.symm]
      exact .refl []
    · exact perm_insertionSort _ _
  exact (perm_insertionSort _ _).trans ((sorted.filter _).map _)

/-- A type whose heads changed is a seed. -/
theorem mem_seeds_of_headsChanged (changed : HeadsChanged sync key) : key ∈ seeds (sync.changes rowOf) := by
  by_contra unseeded
  obtain ⟨path, known, differ⟩ := changed
  have same := table_of_not_seed headsByType_absent unseeded known
  exact differ ((perm_headsByType _).symm.trans (same ▸ perm_headsByType _))

end Movement

section Claims

variable {sync : Sync HeadEntry} {receiver seed target : TypeKey} {rows : List (Text × List HeadEntry)}
  {paths : List Text} {state : Text → List HeadEntry} {steps levels : Nat}

theorem targets_up (read : RowsOf rowOf rows paths state) (key target : TypeKey) :
    target ∈ Worklists.targets (up rows) key ↔ Step paths state key target :=
  mem_targets.trans (mem_up read)

theorem targets_down (read : RowsOf rowOf rows paths state) (key target : TypeKey) :
    target ∈ Worklists.targets (down rows) key ↔ Step paths state target key := by
  rw [mem_targets, down]
  refine .trans ⟨fun member => ?_, fun member => mem_map.mpr ⟨(target, key), member, rfl⟩⟩ (mem_up read)
  obtain ⟨⟨_, _⟩, listed, same⟩ := mem_map.mp member
  cases same
  exact listed

theorem mem_reached_up (read : RowsOf rowOf rows paths state) (positive : 0 < steps) (bounded : steps ≤ levels)
    (walk : Breadth.Walk (Step paths state) {seed} steps target) : target ∈ reached (up rows) seed levels :=
  mem_reached.mpr ⟨steps, positive, bounded, walk.mono fun key next taken => (targets_up read key next).mpr taken⟩

theorem mem_reached_down (read : RowsOf rowOf rows paths state) (positive : 0 < steps) (bounded : steps ≤ levels)
    (walk : Breadth.Walk (Step paths state) {receiver} steps seed) : receiver ∈ reached (down rows) seed levels :=
  mem_reached.mpr
    ⟨steps, positive, bounded, walk.reverse.mono fun key next taken => (targets_down read key next).mpr taken⟩

/-- A walk that reads a seed's head within four steps starts at a receiver. -/
theorem mem_receivers (isSeed : seed ∈ seeds (sync.changes rowOf)) (bounded : steps ≤ walkLevels - 1)
    (walk : Breadth.Walk (Step sync.paths sync.before) {receiver} steps seed ∨
      Breadth.Walk (Step sync.paths sync.after) {receiver} steps seed) : receiver ∈
        (classHeadRefresh sync).receivers := by
  refine mem_flatMap.mpr ⟨seed, isSeed, ?_⟩
  rcases Nat.eq_zero_or_pos steps with rfl | positive
  · have same : seed = receiver := by
      rcases walk with walk | walk
      · cases walk
        assumption
      · cases walk
        assumption
    exact same ▸ mem_cons_self
  · simp only [flatMap_cons, flatMap_nil, append_nil, mem_cons, mem_append]
    exact .inr (walk.imp (mem_reached_down rowsOf_before positive bounded)
      (mem_reached_down rowsOf_after positive bounded))

/-- What a walk reaches through a seed is a target. -/
theorem mem_targets_of_walk (isSeed : seed ∈ seeds (sync.changes rowOf)) (positive : 0 < steps)
    (bounded : steps ≤ walkLevels) (walk : Breadth.Walk (Step sync.paths sync.before) {seed} steps target ∨
      Breadth.Walk (Step sync.paths sync.after) {seed} steps target) : target ∈ (classHeadRefresh sync).targets := by
  refine mem_flatMap.mpr ⟨seed, isSeed, ?_⟩
  simp only [flatMap_cons, flatMap_nil, append_nil, mem_append]
  exact walk.imp (mem_reached_up rowsOf_before positive bounded) (mem_reached_up rowsOf_after positive bounded)

/-- A supertype that got lost is covered. -/
theorem covered_of_lost (old : target ∈ reachedTypes sync.paths sync.before receiver)
    (lost : target ∉ reachedTypes sync.paths sync.after receiver) :
    receiver ∈ (classHeadRefresh sync).receivers ∧ target ∈ (classHeadRefresh sync).targets := by
  obtain ⟨steps, positive, bounded, walk⟩ := old
  rcases walk.of_kept fun key unseeded next => (step_iff_of_not_seed unseeded next).mp with through | cut
  · exact absurd ⟨steps, positive, bounded, through⟩ lost
  · obtain ⟨seed, near, far, isSeed, sum, beyond, old, -, rest⟩ := cut
    simp only [walkLevels] at bounded
    exact ⟨mem_receivers isSeed (by simp only [walkLevels]; omega) (.inl old),
      mem_targets_of_walk isSeed beyond (by simp only [walkLevels]; omega) (.inl rest)⟩

/-- A supertype that came new is covered. -/
theorem covered_of_gained (new : target ∈ reachedTypes sync.paths sync.after receiver)
    (gained : target ∉ reachedTypes sync.paths sync.before receiver) :
    receiver ∈ (classHeadRefresh sync).receivers ∧ target ∈ (classHeadRefresh sync).targets := by
  obtain ⟨steps, positive, bounded, walk⟩ := new
  rcases walk.of_kept fun key unseeded next => (step_iff_of_not_seed unseeded next).mpr with through | cut
  · exact absurd ⟨steps, positive, bounded, through⟩ gained
  · obtain ⟨seed, near, far, isSeed, sum, beyond, new, -, rest⟩ := cut
    simp only [walkLevels] at bounded
    exact ⟨mem_receivers isSeed (by simp only [walkLevels]; omega) (.inr new),
      mem_targets_of_walk isSeed beyond (by simp only [walkLevels]; omega) (.inr rest)⟩

/-- Every type that a walk gained or lost is a target, and a walk that moved or read a changed head starts at a
receiver. -/
theorem class_head_lane_covers (sync : Sync HeadEntry) (receiver : TypeKey) :
    let before := reachedTypes sync.paths sync.before receiver
    let after := reachedTypes sync.paths sync.after receiver
    (before ≠ after ∨ (∃ type, ∃ steps ≤ walkLevels - 1,
        (Breadth.Walk (Step sync.paths sync.before) {receiver} steps type ∨
          Breadth.Walk (Step sync.paths sync.after) {receiver} steps type) ∧ HeadsChanged sync type) →
      receiver ∈ (classHeadRefresh sync).receivers) ∧
    ∀ type ∈ symmDiff before after, type ∈ (classHeadRefresh sync).targets := by
  intro before after
  constructor
  · rintro (differ | ⟨type, steps, bounded, walk, changed⟩)
    · obtain ⟨type, moved⟩ : ∃ type, ¬ (type ∈ before ↔ type ∈ after) := by
        by_contra same
        push Not at same
        exact differ (Set.ext same)
      by_cases old : type ∈ before
      · exact (covered_of_lost old fun new => moved ⟨fun _ => new, fun _ => old⟩).1
      · have new : type ∈ after := by
          by_contra new
          exact moved ⟨fun held => absurd held old, fun held => absurd held new⟩
        exact (covered_of_gained new old).1
    · exact mem_receivers (mem_seeds_of_headsChanged changed) bounded walk
  · intro type moved
    rcases moved with ⟨old, lost⟩ | ⟨new, gained⟩
    · exact (covered_of_lost old lost).2
    · exact (covered_of_gained new gained).2

end Claims

end Codegraph.Lanes.Classes
