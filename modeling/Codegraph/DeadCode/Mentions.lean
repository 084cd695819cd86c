import Codegraph.Query.FileClass
import Mathlib.Data.List.Perm.Basic

/- This file counts how often a text writes a name as a whole identifier. -/

namespace Codegraph.DeadCode
open Codegraph.Query Matches List
open Codegraph.Watch.Scope (Text)

variable (unicode : Unicode)

def isIdentifierChar (c : Char) : Bool := c = '_' || c = '$' || unicode.isAlphabetic c || unicode.isNumeric c

/-- No identifier character touches the name at a place. -/
def standsAlone (source name : Text) (place : Nat) : Bool :=
  !((source.take place).getLast?.any (isIdentifierChar unicode)) &&
    !((source.drop (place + name.length)).head?.any (isIdentifierChar unicode))

/-- The loop goes on behind each match, and it stops at the wanted count. -/
def mentionCountFrom (source name : Text) (given : name ≠ []) (stopAt start count : Nat) : Nat :=
  match _ : find name (source.drop start) with
  | none => count
  | some offset =>
    let place := start + offset
    if standsAlone unicode source name place then
      if count + 1 ≥ stopAt then count + 1
      else mentionCountFrom source name given stopAt (place + name.length) (count + 1)
    else mentionCountFrom source name given stopAt (place + name.length) count
termination_by source.length - start
decreasing_by
  all_goals
    have room := find_drop_fits given ‹find name (source.drop start) = some offset›
    have some_ := List.length_pos_iff.mpr given
    omega

def mentionCount (source name : Text) (stopAt : Nat) : Nat :=
  if given : name = [] then 0
  else if stopAt = 0 then 0
  else mentionCountFrom unicode source name given stopAt 0 0

/-- The places where a text writes a name and no identifier character touches it. An empty name is written nowhere. -/
def mentions (source name : Text) : List Nat :=
  (List.range source.length).filter fun place =>
    decide (name ≠ []) && decide (name <+: source.drop place) && standsAlone unicode source name place

/-- The mentions that the scan from left to right comes across. -/
def scannedMentions (source name : Text) : List Nat :=
  if given : name = [] then [] else (matchesFrom name source given 0).filter (standsAlone unicode source name)

/-- The mentions that begin inside an earlier match of the name, which the scan passes over. -/
def passedMentions (source name : Text) : List Nat :=
  (mentions unicode source name).filter fun place => place ∉ scannedMentions unicode source name

variable {unicode} {source name : Text} {place stopAt : Nat}

theorem mem_mentions : place ∈ mentions unicode source name ↔
    name ≠ [] ∧ name <+: source.drop place ∧ standsAlone unicode source name place = true := by
  simp only [mentions, mem_filter, mem_range, Bool.and_eq_true, decide_eq_true_eq, and_assoc]
  constructor
  · exact .right
  · intro mention
    have room := fits mention.1 mention.2.1
    have some_ := length_pos_iff.mpr mention.1
    exact ⟨by omega, mention⟩

theorem mentions_nodup : (mentions unicode source name).Nodup := nodup_range.filter _

theorem scannedMentions_of_given (given : name ≠ []) :
    scannedMentions unicode source name = (matchesFrom name source given 0).filter (standsAlone unicode source name) :=
  dif_neg given

theorem scannedMentions_nodup : (scannedMentions unicode source name).Nodup := by
  rw [scannedMentions]
  split
  · exact nodup_nil
  · exact matchesFrom_nodup.filter _

theorem mem_mentions_of_scanned (scanned : place ∈ scannedMentions unicode source name) :
    place ∈ mentions unicode source name := by
  rw [scannedMentions] at scanned
  split at scanned
  · cases scanned
  · rename_i given
    obtain ⟨found, alone⟩ := mem_filter.mp scanned
    exact mem_mentions.mpr ⟨given, (of_mem_matchesFrom found).2, alone⟩

/-- Each mention is either scanned or passed over. -/
theorem mentions_length : (mentions unicode source name).length =
    (scannedMentions unicode source name).length + (passedMentions unicode source name).length := by
  have scanned : ((mentions unicode source name).filter fun place => place ∈ scannedMentions unicode source name).Perm
      (scannedMentions unicode source name) := by
    apply (perm_ext_iff_of_nodup (mentions_nodup.filter _) scannedMentions_nodup).mpr
    intro place
    simp only [mem_filter, decide_eq_true_eq]
    exact ⟨And.right, fun found => ⟨mem_mentions_of_scanned found, found⟩⟩
  rw [← scanned.length_eq, passedMentions, ← countP_eq_length_filter, ← countP_eq_length_filter]
  simpa using length_eq_countP_add_countP (fun place => decide (place ∈ scannedMentions unicode source name))

section Loop

variable {given : name ≠ []} {start count offset : Nat}

theorem mentionCountFrom_none (missing : find name (source.drop start) = none) :
    mentionCountFrom unicode source name given stopAt start count = count := by
  rw [mentionCountFrom]
  split
  · rfl
  · rename_i found
    rw [missing] at found
    cases found

theorem mentionCountFrom_some (found : find name (source.drop start) = some offset) :
    mentionCountFrom unicode source name given stopAt start count =
      if standsAlone unicode source name (start + offset) then
        if count + 1 ≥ stopAt then count + 1
        else mentionCountFrom unicode source name given stopAt (start + offset + name.length) (count + 1)
      else mentionCountFrom unicode source name given stopAt (start + offset + name.length) count := by
  rw [mentionCountFrom]
  split
  · rename_i missing
    rw [missing] at found
    cases found
  · rename_i other here
    rw [found] at here
    cases here
    rfl

/-- The counter counts the mentions that stand alone up to where it stops. -/
theorem mentionCountFrom_eq (below : count < stopAt) : mentionCountFrom unicode source name given stopAt start count =
      min stopAt (count + ((matchesFrom name source given start).filter (standsAlone unicode source name)).length) := by
  induction start, count using mentionCountFrom.induct unicode source name given stopAt with
  | case1 start count missing =>
    rw [mentionCountFrom_none missing, matchesFrom_none missing, filter_nil, length_nil]
    omega
  | case2 start count offset found place alone enough =>
    rw [mentionCountFrom_some found, matchesFrom_some found, filter_cons_of_pos alone, if_pos alone,
      if_pos enough, length_cons]
    omega
  | case3 start count offset found place alone more ih =>
    rw [mentionCountFrom_some found, matchesFrom_some found, filter_cons_of_pos alone, if_pos alone,
      if_neg more, ih (by omega), length_cons, Nat.add_assoc, Nat.add_comm 1]
  | case4 start count offset found place touched ih =>
    rw [mentionCountFrom_some found, matchesFrom_some found, filter_cons_of_neg touched, if_neg touched, ih below]

end Loop

/-- The count is the number of scanned mentions, up to the wanted one. -/
theorem mentionCount_eq : mentionCount unicode source name stopAt =
    min stopAt (scannedMentions unicode source name).length := by
  by_cases empty : name = []
  · rw [mentionCount, dif_pos empty, scannedMentions, dif_pos empty]
    simp
  · rw [mentionCount, dif_neg empty, scannedMentions_of_given empty]
    split
    · rename_i none_
      simp [none_]
    · rename_i some_
      rw [mentionCountFrom_eq (Nat.pos_of_ne_zero some_), Nat.zero_add]

end Codegraph.DeadCode
