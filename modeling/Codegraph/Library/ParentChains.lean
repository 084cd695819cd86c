import Mathlib.Data.List.Nodup
import Mathlib.Data.List.Chain

/- This file develops the chains that parent pointers form from a place back to a root. -/

namespace ParentChains

variable {V : Type}

/-- A table of parents has an entry for each reached place, and the entry of a root has no parent. -/
abbrev Parents (V : Type) := V → Option (Option V)

/-- A chain leads from a place over its parents to a root. -/
inductive Chain (parents : Parents V) : V → List V → Prop
  | root {place : V} (found : parents place = some none) : Chain parents place [place]
  | link {place before : V} {places : List V} (found : parents place = some (some before))
      (rest : Chain parents before places) : Chain parents place (place :: places)

/-- The rank counts the links to a root. -/
structure Ranked (parents : Parents V) (rank : V → Nat) : Prop where
  roots : ∀ place, parents place = some none → rank place = 0
  links : ∀ place before, parents place = some (some before) →
    (parents before).isSome = true ∧ rank place = rank before + 1

variable {parents : Parents V} {rank : V → Nat} {place root : V} {places others : List V}

/-- A ranked place has a chain of one place more than its rank. -/
theorem Ranked.chain (ranked : Ranked parents rank) (found : (parents place).isSome = true) :
    ∃ places, Chain parents place places ∧ places.length = rank place + 1 := by
  induction height : rank place using Nat.strongRecOn generalizing place with
  | _ height ih =>
    obtain ⟨entry, stored⟩ := Option.isSome_iff_exists.mp found
    rcases entry with _ | before
    · refine ⟨[place], .root stored, ?_⟩
      rw [← height, ranked.roots place stored]
      rfl
    · obtain ⟨present, higher⟩ := ranked.links place before stored
      obtain ⟨places, chain, length⟩ := ih (rank before) (by omega) present rfl
      refine ⟨place :: places, .link stored chain, ?_⟩
      rw [List.length_cons, length]
      omega

theorem Chain.head (chain : Chain parents place places) : places.head? = some place := by
  cases chain <;> rfl

theorem Chain.mem_self (chain : Chain parents place places) : place ∈ places := List.mem_of_head? chain.head

/-- Every place on a chain has an entry, and the last one is a root. -/
theorem Chain.found (chain : Chain parents place places) : ∀ member ∈ places, (parents member).isSome = true := by
  induction chain with
  | root found =>
    intro member among
    rw [List.mem_singleton.mp among, found]
    rfl
  | link found _ ih =>
    intro member among
    rcases List.mem_cons.mp among with rfl | later
    · rw [found]
      rfl
    · exact ih member later

theorem Chain.ends_at_root (chain : Chain parents place places) :
    ∃ root, places.getLast? = some root ∧ parents root = some none := by
  induction chain with
  | root found => exact ⟨_, rfl, found⟩
  | link _ rest ih =>
    obtain ⟨root, last, found⟩ := ih
    exact ⟨root, by rw [List.getLast?_cons, last]; rfl, found⟩

/-- Consecutive places on a chain are linked. -/
theorem Chain.linked (chain : Chain parents place places) :
    places.IsChain fun later earlier => parents later = some (some earlier) := by
  induction chain with
  | root _ => exact List.isChain_singleton _
  | link found rest ih =>
    cases rest with
    | root _ => exact .cons_cons found ih
    | link _ _ => exact .cons_cons found ih

/-- Ranks fall along a chain, so it repeats no place. -/
theorem Chain.rank_lt (chain : Chain parents place places) (ranked : Ranked parents rank) :
    places.Pairwise fun later earlier => rank earlier < rank later := by
  have falls : places.IsChain fun later earlier => rank earlier < rank later :=
    chain.linked.imp fun later earlier linked => by
      have higher := (ranked.links later earlier linked).2
      omega
  have : IsTrans V fun later earlier => rank earlier < rank later := ⟨fun _ _ _ first second => second.trans first⟩
  exact List.isChain_iff_pairwise.mp falls

theorem Chain.nodup (chain : Chain parents place places) (ranked : Ranked parents rank) : places.Nodup :=
  (chain.rank_lt ranked).imp fun falls same => by
    rw [same] at falls
    exact lt_irrefl _ falls

end ParentChains
