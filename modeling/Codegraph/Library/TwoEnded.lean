import Codegraph.Library.Breadth
import Codegraph.Library.ParentChains

/- This file develops the search for a path from both ends, one level of one side at a time. -/

namespace TwoEnded
open Breadth ParentChains

variable {V : Type} {step : V → V → Prop} {starts ends : Set V} {first last place : V} {depth other forth back : Nat}

/-- A walk of a known length has a place at each depth. -/
theorem walk_split (walk : Walk step starts (depth + other) last) :
    ∃ middle, Walk step starts depth middle ∧ Walk step {middle} other last := by
  induction other generalizing last with
  | zero => exact ⟨last, walk, .here rfl⟩
  | succ other ih =>
    cases walk with
    | @step _ before _ reached taken =>
      obtain ⟨middle, early, late⟩ := ih reached
      exact ⟨middle, early, late.step taken⟩

/-- A walk is walked back along the reversed steps. -/
theorem walk_reverse (walk : Walk step {first} depth last) : Walk (flip step) {last} depth first := by
  induction walk with
  | here begun =>
    rw [Set.mem_singleton_iff.mp begun]
    exact .here rfl
  | @step depth place next _ taken ih =>
    have begun : Walk (flip step) {next} (0 + 1) place := .step (.here rfl) taken
    have whole := begun.append ih
    rwa [show 0 + 1 + depth = depth + 1 by omega] at whole

/-- A walk begins at one of the starts. -/
theorem walk_begins (walk : Walk step starts depth last) : ∃ first ∈ starts, Walk step {first} depth last := by
  induction walk with
  | here begun => exact ⟨_, begun, .here rfl⟩
  | step _ taken ih =>
    obtain ⟨first, begun, walk⟩ := ih
    exact ⟨first, begun, walk.step taken⟩

/-- A walk from a place visits a list of places, each one step from the one before. -/
theorem walk_iff_path : Walk step {first} depth last ↔
    ∃ path : List V, path.head? = some first ∧ path.getLast? = some last ∧ path.IsChain step ∧
      path.length = depth + 1 := by
  constructor
  · intro walk
    induction walk with
    | here begun =>
      obtain rfl := Set.mem_singleton_iff.mp begun
      exact ⟨[_], rfl, rfl, List.isChain_singleton _, rfl⟩
    | @step depth place next _ taken ih =>
      obtain ⟨path, head, last, chain, length⟩ := ih
      refine ⟨path ++ [next], by simp [head], by simp, ?_, by simp [length]⟩
      refine List.isChain_append.mpr ⟨chain, List.isChain_singleton _, ?_⟩
      intro before ended after begun
      rw [last] at ended
      cases ended
      cases begun
      exact taken
  · rintro ⟨path, head, last, chain, length⟩
    induction path generalizing first depth with
    | nil => cases head
    | cons place rest ih =>
      obtain rfl : place = first := Option.some.inj head
      rcases rest with _ | ⟨next, rest⟩
      · obtain rfl := Option.some.inj last
        obtain rfl : depth = 0 := by simpa using length.symm
        exact .here rfl
      · obtain ⟨taken, chain⟩ := List.isChain_cons_cons.mp chain
        have walk : Walk step {next} rest.length _ := ih rfl last chain rfl
        have begun : Walk step {place} (0 + 1) next := .step (.here rfl) taken
        have whole := begun.append walk
        simp only [List.length_cons] at length
        rwa [show 0 + 1 + rest.length = depth by omega] at whole

/-- The ends are joined at a length when a walk that long leads from a start to an end. -/
def Joined (step : V → V → Prop) (starts ends : Set V) (length : Nat) : Prop :=
  ∃ last ∈ ends, Walk step starts length last

/-- A place that walks of both sides reach joins the ends. -/
theorem joined_of_shared (reached : Walk step starts forth place) (returned : Walk (flip step) ends back place) :
    Joined step starts ends (forth + back) := by
  obtain ⟨last, ended, walk⟩ := walk_begins returned
  exact ⟨last, ended, reached.append (walk_reverse walk)⟩

/-- The two sides share a place as soon as some walk is no longer than their levels together. -/
theorem shared_of_joined (joined : Joined step starts ends depth) (bound : depth ≤ forth + back) :
    ∃ place, (∃ near ≤ forth, At step starts near place) ∧ ∃ far ≤ back, At (flip step) ends far place := by
  obtain ⟨last, ended, walk⟩ := joined
  rw [show depth = min depth forth + (depth - min depth forth) by omega] at walk
  obtain ⟨middle, early, late⟩ := walk_split walk
  have returned : Walk (flip step) ends (0 + (depth - min depth forth)) middle :=
    .append (.here ended) (walk_reverse late)
  obtain ⟨near, nearBound, nearest⟩ := early.exists_at
  obtain ⟨far, farBound, farthest⟩ := returned.exists_at
  exact ⟨middle, ⟨near, by omega, nearest⟩, far, by omega, farthest⟩

/-- A side has reached all places up to its level, each from a place one level before, and its front is the last
level. -/
structure Side (step : V → V → Prop) (starts : Set V) (level : Nat) (parents : Parents V) (front : V → Prop) :
    Prop where
  known : ∀ place, (parents place).isSome = true ↔ ∃ depth ≤ level, At step starts depth place
  fronts : ∀ place, front place ↔ At step starts level place
  roots : ∀ place, parents place = some none → At step starts 0 place
  links : ∀ place before, parents place = some (some before) →
    ∃ depth, At step starts depth before ∧ At step starts (depth + 1) place ∧ step before place

/-- While a level is expanded, fresh places join the table, each over a step from the front. -/
structure Expanding (step : V → V → Prop) (front : V → Prop) (parents grown : Parents V) (fresh : V → Prop) : Prop where
  kept : ∀ place, (parents place).isSome = true → grown place = parents place
  joined : ∀ place, parents place = none → ((grown place).isSome = true ↔ fresh place)
  linked : ∀ place, fresh place → parents place = none ∧
    ∃ before, front before ∧ step before place ∧ grown place = some (some before)

section Levels

variable {level : Nat} {parents grown : Parents V} {front fresh : V → Prop}

/-- A side starts with its roots as the front. -/
theorem Side.start (roots : ∀ place ∈ starts, parents place = some none) (rest : ∀ place ∉ starts, parents place = none)
    (fronts : ∀ place, front place ↔ place ∈ starts) : Side step starts 0 parents front := by
  refine ⟨fun place => ?_, fun place => (fronts place).trans at_zero_iff.symm, fun place found => ?_,
    fun place before found => ?_⟩
  · constructor
    · intro found
      by_cases begun : place ∈ starts
      · exact ⟨0, le_rfl, at_zero_iff.mpr begun⟩
      · rw [rest place begun] at found
        cases found
    · rintro ⟨depth, bound, at_⟩
      obtain rfl := Nat.le_zero.mp bound
      rw [roots place (at_zero_iff.mp at_)]
      rfl
  · by_cases begun : place ∈ starts
    · exact at_zero_iff.mpr begun
    · rw [rest place begun] at found
      cases found
  · by_cases begun : place ∈ starts
    · rw [roots place begun] at found
      cases found
    · rw [rest place begun] at found
      cases found

theorem Expanding.start : Expanding step front parents parents fun _ => False :=
  ⟨fun _ _ => rfl, fun place absent => by simp [absent], fun _ fresh => fresh.elim⟩

/-- A place that the table lacks joins it over a step from the front. -/
theorem Expanding.join {after : Parents V} {later : V → Prop} {before next : V}
    (expanding : Expanding step front parents grown fresh) (inFront : front before) (taken : step before next)
    (absent : grown next = none) (set : after next = some (some before))
    (others : ∀ place, place ≠ next → after place = grown place)
    (marks : ∀ place, later place ↔ fresh place ∨ place = next) : Expanding step front parents after later := by
  have unknown : parents next = none := by
    rcases stored : parents next with _ | entry
    · rfl
    · have same := expanding.kept next (by rw [stored]; rfl)
      rw [absent, stored] at same
      cases same
  refine ⟨fun place found => ?_, fun place missing => ?_, fun place new => ?_⟩
  · by_cases same : place = next
    · rw [same, unknown] at found
      cases found
    · rw [others place same]
      exact expanding.kept place found
  · rw [marks]
    by_cases same : place = next
    · rw [same, set]
      simp
    · rw [others place same, expanding.joined place missing]
      simp [same]
  · rcases (marks place).mp new with old | rfl
    · obtain ⟨missing, source, among, reached, stored⟩ := expanding.linked place old
      refine ⟨missing, source, among, reached, ?_⟩
      by_cases same : place = next
      · rw [same, absent] at stored
        cases stored
      · rw [others place same, stored]
    · exact ⟨unknown, before, inFront, taken, set⟩

/-- A place that joins over a step from the last level lies on the next one. -/
theorem Side.fresh_at (side : Side step starts level parents front)
    (expanding : Expanding step front parents grown fresh)
    (new : fresh place) : ∃ before, At step starts level before ∧ step before place ∧
      grown place = some (some before) ∧ At step starts (level + 1) place := by
  obtain ⟨missing, before, among, taken, stored⟩ := expanding.linked place new
  have near := (side.fronts before).mp among
  obtain ⟨further, bound, at_⟩ := near.step_le taken
  have deep : ¬ further ≤ level := by
    intro shallow
    have found := (side.known place).mpr ⟨further, shallow, at_⟩
    rw [missing] at found
    cases found
  obtain rfl : further = level + 1 := by omega
  exact ⟨before, near, taken, stored, at_⟩

/-- When the whole front is expanded, the side stands one level further. -/
theorem Side.advance (side : Side step starts level parents front)
    (expanding : Expanding step front parents grown fresh)
    (complete : ∀ before, front before → ∀ next, step before next → (grown next).isSome = true) :
    Side step starts (level + 1) grown fresh := by
  have next_level {place : V} (at_ : At step starts (level + 1) place) :
      parents place = none ∧ (grown place).isSome = true := by
    obtain ⟨before, near, taken⟩ := at_.pred
    refine ⟨?_, complete before ((side.fronts before).mpr near) place taken⟩
    rcases stored : parents place with _ | entry
    · rfl
    · obtain ⟨depth, bound, nearer⟩ := (side.known place).mp (by rw [stored]; rfl)
      have same := nearer.unique at_
      omega
  refine ⟨fun place => ⟨fun found => ?_, ?_⟩, fun place => ⟨fun new => ?_, fun at_ => ?_⟩, fun place found => ?_,
    fun place before found => ?_⟩
  · rcases stored : parents place with _ | entry
    · obtain ⟨before, -, -, -, at_⟩ := side.fresh_at expanding ((expanding.joined place stored).mp found)
      exact ⟨level + 1, le_rfl, at_⟩
    · obtain ⟨depth, bound, at_⟩ := (side.known place).mp (by rw [stored]; rfl)
      exact ⟨depth, by omega, at_⟩
  · rintro ⟨depth, bound, at_⟩
    by_cases shallow : depth ≤ level
    · have found := (side.known place).mpr ⟨depth, shallow, at_⟩
      rw [expanding.kept place found]
      exact found
    · obtain rfl : depth = level + 1 := by omega
      exact (next_level at_).2
  · obtain ⟨before, -, -, -, at_⟩ := side.fresh_at expanding new
    exact at_
  · exact (expanding.joined place (next_level at_).1).mp (next_level at_).2
  · rcases stored : parents place with _ | entry
    · obtain ⟨-, before, -, -, linked⟩ :=
        expanding.linked place ((expanding.joined place stored).mp (by rw [found]; rfl))
      rw [found] at linked
      cases linked
    · rw [expanding.kept place (by rw [stored]; rfl)] at found
      exact side.roots place found
  · rcases stored : parents place with _ | entry
    · obtain ⟨source, near, taken, linked, at_⟩ :=
        side.fresh_at expanding ((expanding.joined place stored).mp (by rw [found]; rfl))
      rw [found] at linked
      cases linked
      exact ⟨level, near, at_, taken⟩
    · rw [expanding.kept place (by rw [stored]; rfl)] at found
      exact side.links place before found

/-- A side whose last level is empty has reached every place that a walk leads to. -/
theorem Side.exhausted (side : Side step starts (level + 1) parents front) (empty : ∀ place, ¬ front place)
    (walk : Walk step starts depth place) : ∃ near ≤ level, At step starts near place := by
  have none_at (further : Nat) : ∀ place, ¬ At step starts (level + 1 + further) place := by
    induction further with
    | zero => exact fun place at_ => empty place ((side.fronts place).mpr at_)
    | succ further ih =>
      intro place at_
      obtain ⟨before, nearer, -⟩ := At.pred at_
      exact ih before nearer
  obtain ⟨near, -, at_⟩ := walk.exists_at
  refine ⟨near, ?_, at_⟩
  by_contra deep
  refine none_at (near - (level + 1)) place ?_
  rwa [show level + 1 + (near - (level + 1)) = near by omega]

/-- The depth of a reached place ranks its chain. -/
theorem Side.ranked (side : Side step starts level parents front) :
    ∃ rank, Ranked parents rank ∧ ∀ depth place, At step starts depth place → rank place = depth := by
  classical
  let rank (place : V) : Nat := if reached : ∃ depth, At step starts depth place then reached.choose else 0
  have exact_ (depth : Nat) (place : V) (at_ : At step starts depth place) : rank place = depth := by
    have reached : ∃ depth, At step starts depth place := ⟨depth, at_⟩
    simp only [rank, dif_pos reached]
    exact reached.choose_spec.unique at_
  refine ⟨rank, ⟨fun place found => exact_ 0 place (side.roots place found), fun place before found => ?_⟩, exact_⟩
  obtain ⟨depth, near, far, -⟩ := side.links place before found
  refine ⟨?_, by rw [exact_ _ _ near, exact_ _ _ far]⟩
  obtain ⟨known, bound, at_⟩ := (side.known place).mp (by rw [found]; rfl)
  have same := at_.unique far
  exact (side.known before).mpr ⟨depth, by omega, near⟩

end Levels

/-- Consecutive places of an advancing path lie at consecutive depths. -/
def Advances (step : V → V → Prop) (starts : Set V) (place next : V) : Prop :=
  ∃ depth, At step starts depth place ∧ At step starts (depth + 1) next

/-- An advancing path repeats no place. -/
theorem nodup_of_advances {places : List V} (advances : places.IsChain (Advances step starts)) : places.Nodup := by
  let earlier (first second : V) : Prop :=
    ∃ near far, At step starts near first ∧ At step starts far second ∧ near < far
  have : IsTrans V earlier := by
    refine ⟨fun first second third => ?_⟩
    rintro ⟨near, middle, atNear, atMiddle, before⟩ ⟨again, far, atAgain, atFar, after⟩
    exact ⟨near, far, atNear, atFar, by rw [atMiddle.unique atAgain] at before; omega⟩
  have ordered : places.IsChain earlier := advances.imp fun first second advance => by
    obtain ⟨depth, near, far⟩ := advance
    exact ⟨depth, depth + 1, near, far, Nat.lt_succ_self depth⟩
  refine (List.isChain_iff_pairwise.mp ordered).imp fun before same => ?_
  obtain ⟨near, far, atNear, atFar, less⟩ := before
  rw [same] at atNear
  exact absurd (atNear.unique atFar) (by omega)

section Meeting

variable {level : Nat} {parents : Parents V} {front : V → Prop} {length : Nat} {places : List V}

/-- The chain of a forward place, read from its root, advances. -/
theorem Side.forward_advances (side : Side step starts level parents front) (chain : Chain parents place places) :
    places.reverse.IsChain (Advances step starts) := by
  rw [List.isChain_reverse]
  refine chain.linked.imp fun later earlier linked => ?_
  obtain ⟨depth, near, far, -⟩ := side.links later earlier linked
  exact ⟨depth, near, far⟩

/-- No walk is shorter than the shortest, so the chain of a backward place on it advances as well. -/
theorem Side.backward_advances (side : Side (flip step) ends level parents front)
    (shortest : ∀ other, Joined step starts ends other → length ≤ other) (chain : Chain parents place places)
    (reached : At step starts depth place) (returned : At (flip step) ends other place)
    (whole : depth + other = length) : places.IsChain (Advances step starts) := by
  induction chain generalizing depth other with
  | root _ => exact List.isChain_singleton _
  | @link place next places found rest ih =>
    obtain ⟨far, nearEnd, farEnd, taken⟩ := side.links place next found
    obtain rfl := returned.unique farEnd
    obtain ⟨further, bound, at_⟩ := reached.step_le taken
    have least := shortest _ (joined_of_shared at_.1 nearEnd.1)
    obtain rfl : further = depth + 1 := by omega
    have tail := ih at_ nearEnd (by omega)
    have head : Advances step starts place next := ⟨depth, reached, at_⟩
    cases rest with
    | root _ => exact .cons_cons head tail
    | link _ _ => exact .cons_cons head tail

end Meeting

end TwoEnded
