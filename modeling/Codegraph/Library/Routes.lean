import Mathlib.Data.List.Nodup

/- This file lists the routes from a start, and shows which of them a depth-limited search with one visited list
follows. -/

namespace Routes
open List

variable {V : Type} [DecidableEq V]

/-- The routes of fewer than `bound` steps that go on from `behind` over `place`. A route has its last node first, and
it comes before its continuations, which follow the listed order. -/
def routes (next : V → List V) : Nat → V → List V → List (List V)
  | 0, _, _ => []
  | bound + 1, place, behind =>
    (place :: behind) :: (next place).flatMap fun far => routes next bound far (place :: behind)

/-- A route is kept when the route that it continues was kept and no earlier one was kept to its end. -/
def keepFirst (kept : List (List V)) (route : List V) : List (List V) :=
  if (route.tail = [] ∨ route.tail ∈ kept) ∧ ∀ other ∈ kept, other.head? ≠ route.head? then route :: kept else kept

/-- The routes that come first to their ends, among those whose beginnings do. -/
def firstRoutes (next : V → List V) (bound : Nat) (start : V) : List (List V) :=
  (routes next bound start []).foldl keepFirst []

/-- The depth-limited search passes over what it has visited. -/
def explore (next : V → List V) : Nat → V → List V → List V
  | 0, _, visited => visited
  | bound + 1, place, visited =>
    if place ∈ visited then visited
    else (next place).foldl (fun visited far => explore next bound far visited) (place :: visited)

variable {next : V → List V} {bound : Nat} {place start : V} {behind route : List V} {visited : List V}
  {kept : List (List V)}

omit [DecidableEq V] in
theorem routes_suffix (member : route ∈ routes next bound place behind) : place :: behind <:+ route := by
  induction bound generalizing place behind with
  | zero => cases member
  | succ bound ih =>
    rcases mem_cons.mp member with rfl | later
    · exact suffix_rfl
    · obtain ⟨far, -, inside⟩ := mem_flatMap.mp later
      exact (suffix_cons far _).trans (ih inside)

/-- What comes behind a route that was not kept is not kept either. -/
theorem foldl_keepFirst_struck (block : List (List V)) (struck : ∀ route ∈ block, behind <:+ route.tail)
    (nonempty : behind ≠ []) (absent : ∀ route ∈ kept, ¬ behind <:+ route) : block.foldl keepFirst kept = kept := by
  induction block with
  | nil => rfl
  | cons route rest ih =>
    have after := struck route mem_cons_self
    have skipped : keepFirst kept route = kept := by
      refine if_neg fun follows => ?_
      rcases follows.1 with none_ | member
      · rw [none_, suffix_nil] at after
        exact nonempty after
      · exact absent _ member after
    rw [foldl_cons, skipped]
    exact ih fun other member => struck other (mem_cons_of_mem route member)

theorem explore_visited (seen : place ∈ visited) : explore next bound place visited = visited := by
  cases bound with
  | zero => rfl
  | succ bound => exact if_pos seen

theorem explore_keeps {seen : V} (member : seen ∈ visited) : seen ∈ explore next bound place visited := by
  induction bound generalizing place visited with
  | zero => exact member
  | succ bound ih =>
    rw [explore]
    split
    · exact member
    · refine foldlRecOn (next place) _ (mem_cons_of_mem place member) ?_
      exact fun visited held far _ => ih held

/-- A second look at a place finds nothing new. -/
theorem explore_again (others : List V) : explore next bound place
      (others.foldl (fun visited far => explore next bound far visited) (explore next bound place visited)) =
      others.foldl (fun visited far => explore next bound far visited) (explore next bound place visited) := by
  cases bound with
  | zero => rfl
  | succ bound =>
    apply explore_visited
    refine foldlRecOn others _ ?_ fun visited held far _ => explore_keeps held
    rw [explore]
    split
    · assumption
    · refine foldlRecOn (next place) _ mem_cons_self ?_
      exact fun visited held far _ => explore_keeps held

/-- Keeping the routes of a block drops none, adds only routes that go on from `behind`, and ends at what was visited.
-/
structure Follows (kept block : List (List V)) (behind visited : List V) : Prop where
  ends : (block.foldl keepFirst kept).map List.head? = visited.map some
  grows : ∀ route ∈ kept, route ∈ block.foldl keepFirst kept
  inside : ∀ route ∈ block.foldl keepFirst kept, route ∈ kept ∨ behind <:+ route

/-- The blocks of distinct places follow one another, and none of them goes on from another's routes. -/
theorem Follows.flatMap (blocks : ∀ {far : V} {kept : List (List V)} {visited : List V}, place :: behind ∈ kept →
      (∀ route ∈ kept, ¬ far :: place :: behind <:+ route) → kept.map List.head? = visited.map some →
      Follows kept (routes next bound far (place :: behind)) (far :: place :: behind) (explore next bound far visited))
    (fars : List V) (distinct : fars.Nodup) (known : place :: behind ∈ kept)
    (absent : ∀ far ∈ fars, ∀ route ∈ kept, ¬ far :: place :: behind <:+ route)
    (ends : kept.map List.head? = visited.map some) :
    Follows kept (fars.flatMap fun far => routes next bound far (place :: behind)) (place :: behind)
      (fars.foldl (fun visited far => explore next bound far visited) visited) := by
  induction fars generalizing kept visited with
  | nil => exact ⟨ends, fun _ member => member, fun _ member => .inl member⟩
  | cons far rest ih =>
    have first := blocks known (absent far mem_cons_self) ends
    have fresh : ∀ other ∈ rest, ∀ route ∈ (routes next bound far (place :: behind)).foldl keepFirst kept,
        ¬ other :: place :: behind <:+ route := by
      intro other member route reached beyond
      rcases first.inside route reached with old | new
      · exact absent other (mem_cons_of_mem far member) route old beyond
      · have same := (suffix_of_suffix_length_le beyond new (Nat.le_refl _)).eq_of_length rfl
        exact (nodup_cons.mp distinct).1 ((cons.inj same).1 ▸ member)
    have later := ih distinct.of_cons (first.grows _ known) fresh first.ends
    rw [← foldl_cons (f := fun visited far => explore next bound far visited)] at later
    refine ⟨?_, fun route member => ?_, fun route member => ?_⟩
    · rw [flatMap_cons, foldl_append]
      exact later.ends
    · rw [flatMap_cons, foldl_append]
      exact later.grows route (first.grows route member)
    · rw [flatMap_cons, foldl_append] at member
      rcases later.inside route member with old | new
      · exact (first.inside route old).imp_right (suffix_cons far _).trans
      · exact .inr new

/-- The kept routes of one block end where the search from its place goes. -/
theorem routes_follow (distinct : ∀ place, (next place).Nodup) (parent : behind = [] ∨ behind ∈ kept)
    (absent : ∀ route ∈ kept, ¬ place :: behind <:+ route) (ends : kept.map List.head? = visited.map some) :
    Follows kept (routes next bound place behind) (place :: behind) (explore next bound place visited) := by
  induction bound generalizing place behind kept visited with
  | zero => exact ⟨ends, fun _ member => member, fun _ member => .inl member⟩
  | succ bound ih =>
    have fresh_iff : (∀ other ∈ kept, other.head? ≠ some place) ↔ place ∉ visited := by
      have among : some place ∈ kept.map head? ↔ place ∈ visited := by simp [ends]
      simp [← among]
    rw [explore]
    by_cases seen : place ∈ visited
    · -- The place was met before, so the whole block is struck.
      have skipped : keepFirst kept (place :: behind) = kept := if_neg fun follows => fresh_iff.mp follows.2 seen
      have same : (routes next (bound + 1) place behind).foldl keepFirst kept = kept := by
        rw [routes, foldl_cons, skipped]
        refine foldl_keepFirst_struck _ (fun route member => ?_) (cons_ne_nil place behind) absent
        obtain ⟨far, -, inside⟩ := mem_flatMap.mp member
        obtain ⟨front, rfl⟩ := routes_suffix inside
        rcases front with _ | ⟨last, front⟩
        · exact suffix_rfl
        · exact (suffix_cons far _).trans (suffix_append front _)
      rw [if_pos seen]
      exact ⟨by rw [same]; exact ends, by rw [same]; exact fun _ member => member,
        by rw [same]; exact fun _ member => .inl member⟩
    · have followed : keepFirst kept (place :: behind) = (place :: behind) :: kept :=
        if_pos ⟨parent, fresh_iff.mpr seen⟩
      have later : Follows ((place :: behind) :: kept)
        ((next place).flatMap fun far => routes next bound far (place :: behind))
          (place :: behind)
            ((next place).foldl (fun visited far => explore next bound far visited) (place :: visited)) := by
        refine .flatMap (fun known absent ends => ih (.inr known) absent ends) _ (distinct place)
          mem_cons_self ?_ (by simp [ends])
        intro far _ route member beyond
        rcases mem_cons.mp member with rfl | old
        · exact absurd beyond.length_le (by simp)
        · exact absent route old ((suffix_cons far _).trans beyond)
      rw [if_neg seen]
      refine ⟨?_, fun route member => ?_, fun route member => ?_⟩
      · rw [routes, foldl_cons, followed]
        exact later.ends
      · rw [routes, foldl_cons, followed]
        exact later.grows route (mem_cons_of_mem _ member)
      · rw [routes, foldl_cons, followed] at member
        rcases later.inside route member with old | new
        · rcases mem_cons.mp old with rfl | older
          · exact .inr suffix_rfl
          · exact .inl older
        · exact .inr new

/-- The depth-limited search visits the ends of the routes that come first. -/
theorem mem_explore_iff (distinct : ∀ place, (next place).Nodup) (bound : Nat) (start place : V) :
    place ∈ explore next bound start [] ↔ ∃ route ∈ firstRoutes next bound start, route.head? = some place := by
  have follows : Follows [] (routes next bound start []) [start] (explore next bound start []) :=
    routes_follow distinct (.inl rfl) nofun rfl
  rw [← mem_map, firstRoutes, follows.ends]
  simp

section Repeats

theorem nodup_eraseDups (places : List V) : places.eraseDups.Nodup := by
  induction sized : places.length using Nat.strongRecOn generalizing places with
  | ind size ih =>
    rcases places with _ | ⟨first, rest⟩
    · exact nodup_nil
    · rw [eraseDups_cons, nodup_cons]
      refine ⟨by simp, ih _ ?_ _ rfl⟩
      rw [← sized, length_cons]
      exact Nat.lt_succ_of_le (length_filter_le _ _)

/-- A loop that does nothing on a repeated entry may leave out all repeats. -/
theorem foldl_eraseDups {σ : Type} (body : σ → V → σ) (again : ∀ (state : σ) (entry : V) (between : List V),
      body (between.foldl body (body state entry)) entry = between.foldl body (body state entry))
    (entries : List V) (state : σ) : entries.eraseDups.foldl body state = entries.foldl body state := by
  have drop (entry : V) (rest : List V) : ∀ (state : σ) (between : List V),
      (rest.filter fun other => !other == entry).foldl body (between.foldl body (body state entry)) =
        rest.foldl body (between.foldl body (body state entry)) := by
    induction rest with
    | nil => exact fun _ _ => rfl
    | cons first rest ih =>
      intro state between
      by_cases same : first = entry
      · subst same
        simp only [filter_cons, beq_self_eq_true, Bool.not_true, Bool.false_eq_true, if_false, foldl_cons,
          again]
        exact ih state between
      · have kept : (!first == entry) = true := by simp [same]
        rw [filter_cons, if_pos kept, foldl_cons, foldl_cons]
        simpa using ih state (between ++ [first])
  induction sized : entries.length using Nat.strongRecOn generalizing entries state with
  | ind size ih =>
    rcases entries with _ | ⟨first, rest⟩
    · rfl
    · rw [eraseDups_cons, foldl_cons, foldl_cons, ih _ _ _ _ rfl]
      · exact drop first rest state []
      · rw [← sized, length_cons]
        exact Nat.lt_succ_of_le (length_filter_le _ _)

end Repeats

end Routes
