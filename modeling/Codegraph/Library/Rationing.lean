import Codegraph.Library.InsertionMaps
import Codegraph.Library.Occurrences

/- This file gives tables that ask for each key once and give an answer only to the first keys. -/

namespace Rationing
open InsertionMaps Occurrences List

variable {κ V : Type} [DecidableEq κ] (answer : κ → Option V) (ration : Nat)

/-- A known key is not asked for again, and a key behind the ration has no answer. -/
def ask (known : InsertionMap κ (Option V)) (key : κ) : InsertionMap κ (Option V) :=
  if known.containsKey key then known else known.insert key (if known.len ≥ ration then none else answer key)

/-- What the log of the asked keys says about the answer of a key. -/
def answered (asked : List κ) (key : κ) : Option V := if key ∈ (firsts id asked).take ration then answer key else none

/-- The table holds what its log says. -/
structure Remembers (asked : List κ) (known : InsertionMap κ (Option V)) : Prop where
  keys : known.keys = firsts id asked
  values : ∀ key ∈ asked, known.get key = some (answered answer ration asked key)

variable {answer ration} {asked : List κ} {known : InsertionMap κ (Option V)} {key : κ}

theorem mem_firsts_id : key ∈ firsts id asked ↔ key ∈ asked := by simp [mem_firsts]

/-- Later keys do not change the answer of an earlier one. -/
theorem answered_append (earlier : key ∈ asked) (more : List κ) :
    answered answer ration (asked ++ more) key = answered answer ration asked key := by
  have grown : firsts id (asked ++ more) = firsts id asked ++ (more.removeAll asked).eraseDups := by
    simp only [firsts, map_id, eraseDups_append]
  have fresh : key ∉ (more.removeAll asked).eraseDups := by
    rw [mem_eraseDups]
    intro later
    simp [removeAll, earlier] at later
  have same : key ∈ (firsts id (asked ++ more)).take ration ↔ key ∈ (firsts id asked).take ration := by
    rw [grown, take_append, mem_append]
    exact or_iff_left fun later => fresh (mem_of_mem_take later)
  rw [answered, answered, if_congr same rfl rfl]

theorem Remembers.containsKey_iff (remembers : Remembers answer ration asked known) :
    known.containsKey key = true ↔ key ∈ asked := by
  rw [InsertionMap.containsKey, ← known.keyed, remembers.keys, mem_firsts_id]

/-- A table and its log agree on every key. -/
theorem Remembers.get_join (remembers : Remembers answer ration asked known) :
    (known.get key).join = answered answer ration asked key := by
  by_cases member : key ∈ asked
  · rw [remembers.values key member, Option.join_some]
  · have missing : known.get key = none := by
      rw [← Option.not_isSome_iff_eq_none]
      exact fun present => member (remembers.containsKey_iff.mp present)
    rw [missing, answered, if_neg fun first => member (mem_firsts_id.mp (mem_of_mem_take first)), Option.join_none]

theorem remembers_empty : Remembers answer ration [] .empty := ⟨rfl, fun _ member => (not_mem_nil member).elim⟩

/-- Asking for a key is remembered. -/
theorem Remembers.ask (remembers : Remembers answer ration asked known) (key : κ) :
    Remembers answer ration (asked ++ [key]) (ask answer ration known key) := by
  rw [Rationing.ask]
  split
  · rename_i present
    have member := remembers.containsKey_iff.mp present
    refine ⟨?_, ?_⟩
    · rw [firsts_concat, id, if_pos (mem_firsts_id.mpr member), remembers.keys]
    · intro other listed
      have old : other ∈ asked := by
        rcases mem_append.mp listed with before | new
        · exact before
        · exact mem_singleton.mp new ▸ member
      rw [answered_append old, remembers.values other old]
  · rename_i absent
    have new : key ∉ asked := fun member => absent (remembers.containsKey_iff.mpr member)
    have missing : known.get key = none := by simpa [InsertionMap.containsKey] using absent
    have grown : firsts id (asked ++ [key]) = firsts id asked ++ [key] := by
      rw [firsts_concat, id, if_neg fun first => new (mem_firsts_id.mp first)]
    refine ⟨?_, ?_⟩
    · rw [InsertionMap.keys_insert_fresh missing, remembers.keys, grown]
    · intro other listed
      by_cases same : other = key
      · subst same
        have outside : other ∉ (firsts id asked).take ration :=
          fun first => new (mem_firsts_id.mp (mem_of_mem_take first))
        rw [InsertionMap.get_insert_self, answered, grown, take_append, InsertionMap.len, remembers.keys]
        by_cases full : (firsts id asked).length ≥ ration
        · rw [if_pos full, if_neg]
          rw [Nat.sub_eq_zero_of_le full, take_zero, append_nil]
          exact outside
        · have room : ration - (firsts id asked).length = (ration - (firsts id asked).length - 1) + 1 := by omega
          rw [if_neg full, if_pos]
          rw [room]
          exact mem_append_right _ mem_cons_self
      · have old : other ∈ asked :=
          (mem_append.mp listed).resolve_right fun single => same (mem_singleton.mp single)
        rw [InsertionMap.get_insert_ne same, answered_append old, remembers.values other old]

end Rationing
