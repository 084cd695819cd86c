import Codegraph.Library.Breadth
import Codegraph.Library.Occurrences
import Mathlib.Data.List.TakeWhile

/- This file gives the queues that follow links from place to place, and what two of them share when few links differ.
-/

namespace Worklists
open List

variable {V : Type}

/-- A place reaches the targets of a function and theirs. -/
abbrev Reaches (next : V → List V) : V → V → Prop := Relation.ReflTransGen fun place target => target ∈ next place

variable [DecidableEq V]

/-- The targets of a place in a list of links, in the order of the list. -/
def targets (links : List (V × V)) (place : V) : List V := (links.filter (·.1 = place)).map Prod.snd

omit [DecidableEq V] in
theorem reaches_mono {next other : V → List V} (fewer : ∀ place, next place ⊆ other place) {start place : V}
    (reaches : Reaches next start place) : Reaches other start place :=
  .mono (fun place _ taken => fewer place taken) _ _ reaches

@[simp] theorem mem_targets {links : List (V × V)} {place target : V} :
    target ∈ targets links place ↔ (place, target) ∈ links := by
  simp only [targets, mem_map, mem_filter, decide_eq_true_eq]
  constructor
  · rintro ⟨⟨_, _⟩, ⟨member, rfl⟩, rfl⟩
    exact member
  · intro member
    exact ⟨(place, target), ⟨member, rfl⟩, rfl⟩

theorem reaches_swap {links : List (V × V)} {place target : V} :
    Reaches (targets (links.map Prod.swap)) target place ↔ Reaches (targets links) place target := by
  have same : (fun first second => second ∈ targets (links.map Prod.swap) first) =
      Function.swap fun first second => second ∈ targets links first := by
    funext first second
    simp [Function.swap]
  unfold Reaches
  rw [same]
  exact Relation.reflTransGen_swap

/-- A walk takes the first queued place that it has not seen and queues its targets, and it stops after so many
places. -/
def walk (next : V → List V) : Nat → List V → List V → List V
  | 0, _, seen => seen
  | room + 1, queue, seen =>
    match queue.dropWhile (· ∈ seen) with
    | [] => seen
    | place :: rest => walk next room (rest ++ next place) (seen ++ [place])

section Walk

variable {next other : V → List V} {room : Nat} {queue seen rest : List V} {place : V}

theorem mem_of_dropWhile_nil (none : queue.dropWhile (· ∈ seen) = []) (member : place ∈ queue) : place ∈ seen := by
  have all := dropWhile_eq_nil_iff.mp none place member
  exact of_decide_eq_true all

section

variable (found : queue.dropWhile (· ∈ seen) = place :: rest)
include found

theorem fresh_of_dropWhile_cons : place ∉ seen := by
  have fails := dropWhile_get_zero_not (· ∈ seen) queue (by rw [found]; exact Nat.zero_lt_succ _)
  simp only [found, get_eq_getElem, getElem_cons_zero, decide_eq_true_eq] at fails
  exact fails

theorem mem_of_dropWhile_cons {target : V} (member : target ∈ queue) :
    target ∈ seen ∨ target = place ∨ target ∈ rest := by
  rw [← takeWhile_append_dropWhile (p := (· ∈ seen)) (l := queue), found] at member
  rcases mem_append.mp member with before | behind
  · have known := mem_takeWhile_imp before
    exact .inl (of_decide_eq_true known)
  · exact .inr (mem_cons.mp behind)

theorem subset_of_dropWhile_cons : place :: rest ⊆ queue :=
  found ▸ (dropWhile_suffix _).subset

theorem walk_cons : walk next (room + 1) queue seen = walk next room (rest ++ next place) (seen ++ [place]) := by
  rw [walk, found]

end

theorem walk_done (none : queue.dropWhile (· ∈ seen) = []) : walk next room queue seen = seen := by
  cases room with
  | zero => rfl
  | succ room => rw [walk, none]

theorem seen_subset_walk : seen ⊆ walk next room queue seen := by
  induction room generalizing queue seen with
  | zero => exact .refl seen
  | succ room ih =>
    cases found : queue.dropWhile (· ∈ seen) with
    | nil => rw [walk_done found]; exact .refl seen
    | cons place rest =>
      rw [walk_cons found]
      exact List.Subset.trans (subset_append_left seen [place]) ih

theorem nodup_walk (distinct : seen.Nodup) : (walk next room queue seen).Nodup := by
  induction room generalizing queue seen with
  | zero => exact distinct
  | succ room ih =>
    cases found : queue.dropWhile (· ∈ seen) with
    | nil => rw [walk_done found]; exact distinct
    | cons place rest =>
      rw [walk_cons found]
      exact ih (nodup_append.mpr ⟨distinct, nodup_singleton _, fun one member two single =>
        fun same => fresh_of_dropWhile_cons found (mem_singleton.mp single ▸ same ▸ member)⟩)

/-- A walk sees nothing but what its queue reaches. -/
theorem reaches_of_mem_walk (member : place ∈ walk next room queue seen) :
    place ∈ seen ∨ ∃ start ∈ queue, Reaches next start place := by
  induction room generalizing queue seen with
  | zero => exact .inl member
  | succ room ih =>
    cases found : queue.dropWhile (· ∈ seen) with
    | nil => exact .inl (walk_done found ▸ member)
    | cons head rest =>
      rw [walk_cons found] at member
      have inside := subset_of_dropWhile_cons found
      rcases ih member with known | ⟨start, queued, reaches⟩
      · rcases mem_append.mp known with old | single
        · exact .inl old
        · exact .inr ⟨head, inside mem_cons_self, mem_singleton.mp single ▸ .refl⟩
      · rcases mem_append.mp queued with old | new
        · exact .inr ⟨start, inside (mem_cons_of_mem _ old), reaches⟩
        · exact .inr ⟨head, inside mem_cons_self, reaches.head new⟩

/-- A walk with room to spare has seen its queue and the targets of all it saw. -/
theorem closed_walk (spare : (walk next room queue seen).length < seen.length + room)
    (waiting : ∀ place ∈ seen, ∀ target ∈ next place, target ∈ seen ∨ target ∈ queue) :
    (∀ place ∈ queue, place ∈ walk next room queue seen) ∧
      ∀ place ∈ walk next room queue seen, ∀ target ∈ next place, target ∈ walk next room queue seen := by
  induction room generalizing queue seen with
  | zero => exact absurd spare (Nat.lt_irrefl _)
  | succ room ih =>
    cases found : queue.dropWhile (· ∈ seen) with
    | nil =>
      rw [walk_done found]
      exact ⟨fun _ member => mem_of_dropWhile_nil found member, fun place member target taken =>
        (waiting place member target taken).elim id (mem_of_dropWhile_nil found)⟩
    | cons head rest =>
      rw [walk_cons found] at spare ⊢
      have inside : ∀ place ∈ seen ++ [head], ∀ target ∈ next place, target ∈ seen ++ [head] ∨
        target ∈ rest ++ next head := by
        intro place member target taken
        rcases mem_append.mp member with old | single
        · rcases waiting place old target taken with known | queued
          · exact .inl (mem_append_left _ known)
          · rcases mem_of_dropWhile_cons found queued with known | rfl | later
            · exact .inl (mem_append_left _ known)
            · exact .inl (mem_append_right _ (mem_singleton_self _))
            · exact .inr (mem_append_left _ later)
        · rw [mem_singleton.mp single] at taken
          exact .inr (mem_append_right _ taken)
      rw [show seen.length + (room + 1) = (seen ++ [head]).length + room by
        rw [length_append, length_singleton]; omega] at spare
      obtain ⟨queued, closed⟩ := ih spare inside
      refine ⟨fun place member => ?_, closed⟩
      rcases mem_of_dropWhile_cons found member with known | rfl | later
      · exact seen_subset_walk (mem_append_left _ known)
      · exact seen_subset_walk (mem_append_right _ (mem_singleton_self _))
      · exact queued place (mem_append_left _ later)

/-- A walk that stays below its limit has seen all that its starts reach. -/
theorem mem_walk_iff {starts : List V} (spare : (walk next room starts []).length < room) :
    place ∈ walk next room starts [] ↔ ∃ start ∈ starts, Reaches next start place := by
  constructor
  · intro member
    exact (reaches_of_mem_walk member).resolve_left not_mem_nil
  · rintro ⟨start, begun, reaches⟩
    obtain ⟨queued, closed⟩ := closed_walk (by simpa using spare) (fun _ member => absurd member not_mem_nil)
    induction reaches with
    | refl => exact queued start begun
    | tail _ taken ih => exact closed _ ih _ taken

/-- A walk over no more places than it has room for sees all that its starts reach. -/
theorem mem_walk_iff_of_few {starts places : List V} (few : places.length ≤ room)
    (all : ∀ place, (∃ start ∈ starts, Reaches next start place) → place ∈ places) :
    place ∈ walk next room starts [] ↔ ∃ start ∈ starts, Reaches next start place := by
  rcases Nat.lt_or_ge (walk next room starts []).length room with spare | full
  · exact mem_walk_iff spare
  · have inside : walk next room starts [] ⊆ places := fun other member =>
      all other ((reaches_of_mem_walk member).resolve_left not_mem_nil)
    have same := (subperm_of_subset (nodup_walk nodup_nil) inside).perm_of_length_le (few.trans full)
    exact ⟨fun member => (reaches_of_mem_walk member).resolve_left not_mem_nil,
      fun reached => same.mem_iff.mpr (all place reached)⟩

/-- Two walks are one when the functions agree on all that the first sees. -/
theorem walk_congr (agree : ∀ place ∈ walk next room queue seen, next place = other place) :
    walk next room queue seen = walk other room queue seen := by
  induction room generalizing queue seen with
  | zero => rfl
  | succ room ih =>
    cases found : queue.dropWhile (· ∈ seen) with
    | nil => rw [walk_done found, walk_done found]
    | cons place rest =>
      rw [walk_cons found] at agree
      rw [walk_cons found, walk_cons found]
      have here : place ∈ walk next room (rest ++ next place) (seen ++ [place]) :=
        seen_subset_walk (mem_append_right _ (mem_singleton_self _))
      rw [← agree place here]
      exact ih agree

end Walk

/-- The places that so many steps lead to from one of some starts. -/
abbrev Steps (next : V → List V) (starts : List V) : Nat → V → Prop :=
  Breadth.Walk (fun place target => target ∈ next place) { start | start ∈ starts }

/-- A place is early when fewer places than the limit lie as near to the starts as it. -/
def Early (next : V → List V) (starts : List V) (limit : Nat) (place : V) : Prop :=
  ∃ depth, Steps next starts depth place ∧ ∃ places : List V, places.length < limit ∧
    ∀ near ≤ depth, ∀ target, Steps next starts near target → target ∈ places

/-- A queue holds what is left of one level and then what is known of the next one. -/
structure Layered (next : V → List V) (starts : List V) (depth : Nat) (upper lower seen : List V) : Prop where
  level : ∀ place ∈ upper, Steps next starts depth place
  below : ∀ place ∈ lower, Steps next starts (depth + 1) place
  near : ∀ steps ≤ depth, ∀ place, Steps next starts steps place → place ∈ seen ∨ place ∈ upper
  waiting : ∀ place ∈ seen, ∀ target ∈ next place, target ∈ seen ∨ target ∈ upper ++ lower

section Cut

variable {next other : V → List V} {starts upper lower later seen rest : List V} {limit depth room : Nat} {place : V}

omit [DecidableEq V] in
theorem Layered.start : Layered next starts 0 starts [] [] where
  level _ member := .here member
  below _ none := absurd none not_mem_nil
  near steps none place walk := by
    obtain rfl := Nat.le_zero.mp none
    cases walk with
    | here begun => exact .inr begun
  waiting _ none := absurd none not_mem_nil

omit [DecidableEq V] in
/-- When a level is read, the next one is known. -/
theorem Layered.turn (layered : Layered next starts depth upper lower seen) (read : upper ⊆ seen) :
    Layered next starts (depth + 1) lower [] seen where
  level := layered.below
  below _ none := absurd none not_mem_nil
  near steps bound place walk := by
    rcases Nat.lt_or_eq_of_le bound with short | rfl
    · exact .inl ((layered.near steps (Nat.le_of_lt_succ short) place walk).elim id fun waits => read waits)
    · cases walk with
      | @step _ before _ reached taken =>
        have known := (layered.near depth le_rfl before reached).elim id fun waits => read waits
        rcases layered.waiting before known place taken with old | queued
        · exact .inl old
        · exact (mem_append.mp queued).imp_left fun waits => read waits
  waiting place member target taken := by
    rw [append_nil]
    rcases layered.waiting place member target taken with old | queued
    · exact .inl old
    · exact (mem_append.mp queued).imp_left fun waits => read waits

/-- Taking a fresh place from the upper layer keeps the layers. -/
theorem Layered.step (layered : Layered next starts depth upper lower seen)
    (found : upper.dropWhile (· ∈ seen) = place :: rest) :
    Layered next starts depth rest (lower ++ next place) (seen ++ [place]) := by
  have inside := subset_of_dropWhile_cons found
  have moves {target : V} (either : target ∈ seen ∨ target ∈ upper) : target ∈ seen ++ [place] ∨ target ∈ rest := by
    rcases either with old | waits
    · exact .inl (mem_append_left _ old)
    · rcases mem_of_dropWhile_cons found waits with old | rfl | later
      · exact .inl (mem_append_left _ old)
      · exact .inl (mem_append_right _ (mem_singleton_self _))
      · exact .inr later
  refine ⟨fun target member => layered.level target (inside (mem_cons_of_mem _ member)), ?_,
    fun steps bound target walk => moves (layered.near steps bound target walk), ?_⟩
  · intro target member
    rcases mem_append.mp member with old | new
    · exact layered.below target old
    · exact (layered.level place (inside mem_cons_self)).step new
  · intro before member target taken
    rw [← append_assoc, mem_append (s := rest ++ lower), mem_append (s := rest)]
    rcases mem_append.mp member with old | single
    · rcases layered.waiting before old target taken with known | queued
      · exact (moves (.inl known)).imp_right fun waits => .inl (.inl waits)
      · rcases mem_append.mp queued with waits | further
        · exact (moves (.inr waits)).imp_right fun waits => .inl (.inl waits)
        · exact .inr (.inl (.inr further))
    · exact .inr (.inr (mem_singleton.mp single ▸ taken))

theorem dropWhile_append_cons (found : upper.dropWhile (· ∈ seen) = place :: rest) :
    (upper ++ lower).dropWhile (· ∈ seen) = place :: (rest ++ lower) := by
  rw [dropWhile_append, found]
  rfl

/-- A walk that its level alone fills reads nothing behind the level. -/
theorem walk_of_crowd (crowd : ∀ places : List V, upper ⊆ seen ++ places → room ≤ places.length) :
    walk next room (upper ++ lower) seen = walk other room (upper ++ later) seen := by
  induction room generalizing upper lower later seen with
  | zero => rfl
  | succ room ih =>
    cases found : upper.dropWhile (· ∈ seen) with
    | nil =>
      have none := crowd [] fun place member => by simpa using mem_of_dropWhile_nil found member
      cases none
    | cons place rest =>
      rw [walk_cons (dropWhile_append_cons found), walk_cons (dropWhile_append_cons found), append_assoc,
        append_assoc]
      refine ih fun places covers => Nat.le_of_succ_le_succ (crowd (place :: places) fun target member => ?_)
      rw [← singleton_append, ← append_assoc]
      rcases mem_of_dropWhile_cons found member with old | rfl | later
      · exact mem_append_left _ (mem_append_left _ old)
      · exact mem_append_left _ (mem_append_right _ (mem_singleton_self _))
      · exact covers later

omit [DecidableEq V] in
/-- A level whose places are not early fills the walk. -/
theorem Layered.crowd (layered : Layered next starts depth upper lower seen) (late : ¬ Early next starts limit place)
    (here : Steps next starts depth place) (full : seen.length + room = limit) (places : List V)
    (covers : upper ⊆ seen ++ places) : room ≤ places.length := by
  by_contra short
  refine late ⟨depth, here, seen ++ places, ?_, fun near bound target walk => ?_⟩
  · rw [length_append]
    omega
  · exact (layered.near near bound target walk).elim (mem_append_left _) fun waits => covers waits

/-- Two walks agree as long as their neighbours agree on the early places. -/
theorem Layered.walk_congr (layered : Layered next starts depth upper lower seen) (full : seen.length + room = limit)
    (agree : ∀ place, Early next starts limit place → next place = other place) :
    walk next room (upper ++ lower) seen = walk other room (upper ++ lower) seen := by
  induction room generalizing depth upper lower seen with
  | zero => rfl
  | succ room ih =>
    have reads {depth : Nat} {upper lower : List V} {place : V} {rest : List V}
        (layered : Layered next starts depth upper lower seen)
        (found : upper.dropWhile (· ∈ seen) = place :: rest) :
        walk next (room + 1) (upper ++ lower) seen = walk other (room + 1) (upper ++ lower) seen := by
      have stepped := layered.step found
      have here := layered.level place (subset_of_dropWhile_cons found mem_cons_self)
      have full' : (seen ++ [place]).length + room = limit := by
        rw [length_append, length_singleton]
        omega
      rw [walk_cons (dropWhile_append_cons found), walk_cons (dropWhile_append_cons found), append_assoc,
        append_assoc]
      by_cases early : Early next starts limit place
      · rw [← agree place early]
        exact ih stepped full'
      · exact walk_of_crowd (stepped.crowd early here full')
    cases found : upper.dropWhile (· ∈ seen) with
    | cons place rest => exact reads layered found
    | nil =>
      -- The level is read, and the walk goes on in the next one, if that holds anything new.
      have passes (next : V → List V) : walk next (room + 1) (upper ++ lower) seen =
        walk next (room + 1) lower seen := by
        rw [walk, walk, dropWhile_append, found]
        rfl
      rw [passes, passes]
      have turned := layered.turn fun place member => mem_of_dropWhile_nil found member
      cases further : lower.dropWhile (· ∈ seen) with
      | nil => rw [walk_done further, walk_done further]
      | cons place rest => simpa using reads turned further

/-- Two walks from the same starts are one when the functions agree on the early places. -/
theorem walk_congr_early (agree : ∀ place, Early next starts limit place → next place = other place) :
    walk next limit starts [] = walk other limit starts [] := by
  simpa using Layered.start.walk_congr (Nat.zero_add limit) agree

end Cut

/-- A closure is a walk with more room than there are places, so that nothing but its empty queue ends it. -/
def closure (links : List (V × V)) (starts : List V) : List V :=
  walk (targets links) (starts.length + links.length + 1) starts []

section Closure

variable {links : List (V × V)} {starts : List V} {place target : V}

theorem mem_places_of_reaches (reaches : Reaches (targets links) place target) (begun : place ∈ starts) :
    target ∈ starts ++ links.map Prod.snd := by
  cases reaches with
  | refl => exact mem_append_left _ begun
  | tail _ taken => exact mem_append_right _ (mem_map_of_mem (mem_targets.mp taken))

theorem nodup_closure : (closure links starts).Nodup := nodup_walk nodup_nil

theorem length_closure_lt : (closure links starts).length < starts.length + links.length + 1 := by
  have inside : closure links starts ⊆ starts ++ links.map Prod.snd := by
    intro place member
    obtain ⟨start, begun, reaches⟩ := (reaches_of_mem_walk member).resolve_left not_mem_nil
    exact mem_places_of_reaches reaches begun
  have bound := (subperm_of_subset nodup_closure inside).length_le
  rw [length_append, length_map] at bound
  omega

@[simp] theorem mem_closure : place ∈ closure links starts ↔ ∃ start ∈ starts, Reaches (targets links) start place :=
  mem_walk_iff length_closure_lt

end Closure

/-- A spread marks the new targets of a queued place and pushes them on its queue. -/
def spread (next : V → List V) (push : List V → List V → List V) : Nat → List V → List V → List V
  | 0, _, reached => reached
  | _ + 1, [], reached => reached
  | fuel + 1, place :: rest, reached =>
    let fresh := ((next place).filter (· ∉ reached)).eraseDups
    spread next push fuel (push rest fresh) (reached ++ fresh)

section Spread

variable {next : V → List V} {push : List V → List V → List V} {fuel : Nat} {queue reached places : List V} {place : V}

theorem reached_subset_spread : reached ⊆ spread next push fuel queue reached := by
  induction fuel generalizing queue reached with
  | zero => exact .refl reached
  | succ fuel ih =>
    cases queue with
    | nil => exact .refl reached
    | cons place rest => exact List.Subset.trans (subset_append_left reached _) ih

theorem nodup_eraseDups (items : List V) : items.eraseDups.Nodup := by
  simpa [Occurrences.firsts] using @Occurrences.firsts_nodup V V _ id items

/-- A spread marks nothing but what its marks reach. -/
theorem reaches_of_mem_spread (pushes : ∀ rest fresh, (push rest fresh).Perm (rest ++ fresh)) (marked : queue ⊆ reached)
    (member : place ∈ spread next push fuel queue reached) : ∃ start ∈ reached, Reaches next start place := by
  induction fuel generalizing queue reached with
  | zero => exact ⟨place, member, .refl⟩
  | succ fuel ih =>
    cases queue with
    | nil => exact ⟨place, member, .refl⟩
    | cons head rest =>
      have inside : push rest ((next head).filter (· ∉ reached)).eraseDups ⊆
          reached ++ ((next head).filter (· ∉ reached)).eraseDups := by
        intro target queued
        exact (mem_append.mp ((pushes _ _).mem_iff.mp queued)).elim
          (fun old => mem_append_left _ (marked (mem_cons_of_mem _ old))) (mem_append_right _)
      obtain ⟨start, begun, reaches⟩ := ih inside member
      rcases mem_append.mp begun with old | new
      · exact ⟨start, old, reaches⟩
      · have taken : start ∈ next head := (mem_filter.mp (mem_eraseDups.mp new)).1
        exact ⟨head, marked mem_cons_self, reaches.head taken⟩

/-- A spread with as much fuel as there are places has marked the targets of all its marks. -/
theorem closed_spread (pushes : ∀ rest fresh, (push rest fresh).Perm (rest ++ fresh)) (distinct : reached.Nodup)
    (inside : reached ⊆ places) (targeted : ∀ place, next place ⊆ places)
    (enough : places.length + queue.length ≤ fuel + reached.length)
    (waiting : ∀ place ∈ reached, place ∈ queue ∨ next place ⊆ reached) :
    ∀ place ∈ spread next push fuel queue reached, next place ⊆ spread next push fuel queue reached := by
  induction fuel generalizing queue reached with
  | zero =>
    have bound := (subperm_of_subset distinct inside).length_le
    obtain rfl := length_eq_zero_iff.mp (show queue.length = 0 by omega)
    exact fun place member => (waiting place member).resolve_left not_mem_nil
  | succ fuel ih =>
    cases queue with
    | nil => exact fun place member => (waiting place member).resolve_left not_mem_nil
    | cons head rest =>
      have new {target : V} (member : target ∈ ((next head).filter (· ∉ reached)).eraseDups) :
          target ∈ next head ∧ target ∉ reached := by
        have kept := mem_filter.mp (mem_eraseDups.mp member)
        exact ⟨kept.1, of_decide_eq_true kept.2⟩
      refine ih ?_ ?_ ?_ ?_
      · exact nodup_append.mpr
          ⟨distinct, nodup_eraseDups _, fun one old two fresh same => (new fresh).2 (same ▸ old)⟩
      · exact append_subset.mpr ⟨inside, fun target fresh => targeted head (new fresh).1⟩
      · rw [(pushes _ _).length_eq, length_append, length_append]
        rw [length_cons] at enough
        omega
      · intro place member
        rcases mem_append.mp member with old | fresh
        · rcases waiting place old with queued | closed
          · rcases mem_cons.mp queued with rfl | later
            · right
              intro target taken
              by_cases known : target ∈ reached
              · exact mem_append_left _ known
              · exact mem_append_right _
                  (mem_eraseDups.mpr (mem_filter.mpr ⟨taken, decide_eq_true known⟩))
            · exact .inl ((pushes _ _).mem_iff.mpr (mem_append_left _ later))
          · exact .inr fun target taken => mem_append_left _ (closed taken)
        · exact .inl ((pushes _ _).mem_iff.mpr (mem_append_right _ fresh))

/-- With enough fuel exactly the places within reach of the starts are seen. -/
theorem mem_spread_iff (pushes : ∀ rest fresh, (push rest fresh).Perm (rest ++ fresh)) {starts : List V}
    (distinct : starts.Nodup)
    (permuted : queue.Perm starts) (inside : starts ⊆ places) (targeted : ∀ place, next place ⊆ places)
    (enough : places.length ≤ fuel) :
    place ∈ spread next push fuel queue starts ↔ ∃ start ∈ starts, Reaches next start place := by
  constructor
  · exact fun member => reaches_of_mem_spread pushes permuted.subset member
  · rintro ⟨start, begun, reaches⟩
    have length : places.length + queue.length ≤ fuel + starts.length := by
      rw [permuted.length_eq]
      exact Nat.add_le_add_right enough _
    have closed :=
      closed_spread pushes distinct inside targeted length (fun place member => .inl (permuted.mem_iff.mpr member))
    induction reaches with
    | refl => exact reached_subset_spread begun
    | tail _ taken ih => exact closed _ ih taken

end Spread

/-- A bounded search collects the targets of all places it pops above its last level and queues the new ones one level
on. -/
def search (next : V → List V) (levels : Nat) : Nat → List (V × Nat) → List V → List V → List V
  | 0, _, _, out => out
  | _ + 1, [], _, out => out
  | fuel + 1, (place, depth) :: rest, seen, out =>
    if depth = levels then search next levels fuel rest seen out
    else
      let fresh := ((next place).filter (· ∉ seen)).eraseDups
      search next levels fuel (rest ++ fresh.map (·, depth + 1)) (seen ++ fresh) (out ++ next place)

/-- The places that links reach from a start in one to so many steps. -/
def reached (links : List (V × V)) (start : V) (levels : Nat) : List V :=
  search (targets links) levels (links.length + 1) [(start, 0)] [start] []

section Search

variable {next : V → List V} {levels fuel depth : Nat} {queue rest : List (V × Nat)} {seen out places : List V}
  {start place target : V}

/-- The places that a search has popped. -/
def Popped (queue : List (V × Nat)) (seen : List V) (place : V) : Prop := place ∈ seen ∧ place ∉ queue.map Prod.fst

/-- A search knows the distances of its queue, and it has collected the targets of the places it popped. -/
structure Searching (next : V → List V) (levels : Nat) (start : V) (queue : List (V × Nat)) (seen out : List V) :
    Prop where
  frontier : Breadth.Frontier (fun place target => target ∈ next place) {start} (some levels) (Popped queue seen) queue
  distinct : (queue.map Prod.fst).Nodup
  marked : queue.map Prod.fst ⊆ seen
  collected : ∀ target, target ∈ out ↔ ∃ place depth, Popped queue seen place ∧
    Breadth.At (fun place target => target ∈ next place) {start} depth place ∧ depth < levels ∧ target ∈ next place

omit [DecidableEq V] in
theorem Searching.begin : Searching next levels start [(start, 0)] [start] [] := by
  have none (place : V) : ¬ Popped [(start, 0)] [start] place := fun popped => popped.2 (by simpa using popped.1)
  refine ⟨?_, by simp, by simp, fun target => ?_⟩
  · have same : Popped [(start, 0)] [start] = fun _ => False := by
      funext place
      exact eq_false (none place)
    rw [same]
    exact .start start
  · simp [none]

/-- Popping a place adds it to what was popped and nothing else. -/
theorem popped_cons_iff (distinct : (((place, depth) :: rest).map Prod.fst).Nodup)
    (marked : ((place, depth) :: rest).map Prod.fst ⊆ seen)
    {fresh : List V} (new : ∀ target ∈ fresh, target ∉ seen) (other : V) : Popped (rest ++ fresh.map (·, depth + 1))
    (seen ++ fresh) other ↔ Popped ((place, depth) :: rest) seen other ∨ other = place := by
  have names : (rest ++ fresh.map (·, depth + 1)).map Prod.fst = rest.map Prod.fst ++ fresh := by
    simp [Function.comp_def]
  rw [Popped, Popped, names, mem_append, mem_append, map_cons, mem_cons]
  rw [map_cons, nodup_cons] at distinct
  have here : place ∈ seen := marked mem_cons_self
  constructor
  · rintro ⟨known | one, waits⟩
    · by_cases same : other = place
      · exact .inr same
      · exact .inl ⟨known, fun either => either.elim same fun later => waits (.inl later)⟩
    · exact absurd (.inr one) waits
  · rintro (⟨known, waits⟩ | rfl)
    · exact ⟨.inl known, fun either => either.elim (fun later => waits (.inr later)) fun one => new _ one known⟩
    · exact ⟨.inl here, fun either => either.elim distinct.1 fun one => new _ one here⟩

theorem mem_fresh {item : V} (member : item ∈ ((next place).filter (· ∉ seen)).eraseDups) :
    item ∈ next place ∧ item ∉ seen := by
  have kept := mem_filter.mp (mem_eraseDups.mp member)
  exact ⟨kept.1, of_decide_eq_true kept.2⟩

/-- A place at the last level is dropped. -/
theorem Searching.drop (searching : Searching next levels start ((place, depth) :: rest) seen out)
    (deep : depth = levels) : Searching next levels start rest seen out := by
  have marks := popped_cons_iff searching.distinct searching.marked
    (fun target none => absurd none (not_mem_nil (a := target)))
  simp only [map_nil, append_nil] at marks
  have fresh : ¬ Popped ((place, depth) :: rest) seen place := fun popped => popped.2 mem_cons_self
  have at_ := searching.frontier.head_at fresh
  refine ⟨?_, (nodup_cons.mp searching.distinct).2,
    fun other member => searching.marked (mem_cons_of_mem _ member), ?_⟩
  · have expanded := searching.frontier.expand fresh marks (fun _ none => absurd none not_mem_nil)
      (fun admits => absurd (admits levels rfl) (by omega))
    rwa [append_nil] at expanded
  · intro target
    rw [searching.collected]
    constructor
    · rintro ⟨other, near, popped, rest⟩
      exact ⟨other, near, (marks other).mpr (.inl popped), rest⟩
    · rintro ⟨other, near, popped, nearest, above, taken⟩
      rcases (marks other).mp popped with old | rfl
      · exact ⟨other, near, old, nearest, above, taken⟩
      · exact absurd (nearest.unique at_) (by omega)

/-- A place above the last level hands over its targets. -/
theorem Searching.pop (searching : Searching next levels start ((place, depth) :: rest) seen out)
    (shallow : depth ≠ levels) :
    Searching next levels start (rest ++ (((next place).filter (· ∉ seen)).eraseDups).map (·, depth + 1))
      (seen ++ ((next place).filter (· ∉ seen)).eraseDups) (out ++ next place) := by
  have new (target : V) (member : target ∈ ((next place).filter (· ∉ seen)).eraseDups) : target ∉ seen :=
    (mem_fresh member).2
  have marks := popped_cons_iff searching.distinct searching.marked new
  have fresh : ¬ Popped ((place, depth) :: rest) seen place := fun popped => popped.2 mem_cons_self
  have at_ := searching.frontier.head_at fresh
  have above : depth < levels := lt_of_le_of_ne ((searching.frontier.routed _ mem_cons_self).2 levels rfl) shallow
  have names : (rest ++ (((next place).filter (· ∉ seen)).eraseDups).map (·, depth + 1)).map Prod.fst =
      rest.map Prod.fst ++ ((next place).filter (· ∉ seen)).eraseDups := by simp [Function.comp_def]
  refine ⟨?_, ?_, ?_, ?_⟩
  · refine searching.frontier.expand fresh marks ?_ ?_
    · intro entry member
      obtain ⟨target, queued, rfl⟩ := mem_map.mp member
      exact ⟨rfl, (mem_fresh queued).1, fun bound same => Option.some.inj same ▸ above⟩
    · intro _ target taken
      by_cases known : target ∈ seen
      · by_cases waits : target ∈ rest.map Prod.fst
        · obtain ⟨⟨_, further⟩, member, rfl⟩ := mem_map.mp waits
          have near := searching.frontier.spans _ (mem_cons_of_mem _ member) _ mem_cons_self
          exact .inr ⟨further, near, mem_append_left _ member⟩
        · exact .inl ((marks target).mpr (by
            by_cases same : target = place
            · exact .inr same
            · exact .inl ⟨known, fun either => (mem_cons.mp either).elim same waits⟩))
      · refine .inr ⟨depth + 1, le_rfl, mem_append_right _ (mem_map.mpr ⟨target, ?_, rfl⟩)⟩
        exact mem_eraseDups.mpr (mem_filter.mpr ⟨taken, decide_eq_true known⟩)
  · rw [names]
    refine nodup_append.mpr ⟨(nodup_cons.mp searching.distinct).2, nodup_eraseDups _, ?_⟩
    exact fun one old two fresh same => new two fresh (same ▸ searching.marked (mem_cons_of_mem _ old))
  · rw [names]
    exact append_subset.mpr
      ⟨fun other member => mem_append_left _ (searching.marked (mem_cons_of_mem _ member)),
      subset_append_right _ _⟩
  · intro target
    rw [mem_append, searching.collected]
    constructor
    · rintro (⟨other, near, popped, rest⟩ | taken)
      · exact ⟨other, near, (marks other).mpr (.inl popped), rest⟩
      · exact ⟨place, depth, (marks place).mpr (.inr rfl), at_, above, taken⟩
    · rintro ⟨other, near, popped, nearest, short, taken⟩
      rcases (marks other).mp popped with old | rfl
      · exact .inl ⟨other, near, old, nearest, short, taken⟩
      · exact .inr taken

/-- A search with as much fuel as there are places empties its queue. -/
theorem Searching.run (searching : Searching next levels start queue seen out) (once : seen.Nodup)
    (inside : seen ⊆ places)
    (targeted : ∀ place, next place ⊆ places) (enough : places.length + queue.length ≤ fuel + seen.length) :
    ∃ seen', Searching next levels start [] seen' (search next levels fuel queue seen out) := by
  induction fuel generalizing queue seen out with
  | zero =>
    have bound := (subperm_of_subset once inside).length_le
    obtain rfl := length_eq_zero_iff.mp (show queue.length = 0 by omega)
    exact ⟨seen, searching⟩
  | succ fuel ih =>
    match queue, searching with
    | [], searching => exact ⟨seen, searching⟩
    | (place, depth) :: rest, searching =>
      rw [search]
      rw [length_cons] at enough
      split
      · rename_i deep
        exact ih (searching.drop deep) once inside (by omega)
      · rename_i shallow
        refine ih (searching.pop shallow) ?_ ?_ ?_
        · exact nodup_append.mpr
            ⟨once, nodup_eraseDups _, fun one old two fresh same => (mem_fresh fresh).2 (same ▸ old)⟩
        · exact append_subset.mpr ⟨inside, fun target fresh => targeted place (mem_fresh fresh).1⟩
        · simp only [length_append, length_map]
          omega

/-- A search collects what it reaches in one to so many steps. -/
@[simp] theorem mem_reached {links : List (V × V)} : target ∈ reached links start levels ↔
    ∃ steps, 0 < steps ∧ steps ≤ levels ∧ Breadth.Walk (fun place target => target ∈ targets links place)
    {start} steps target := by
  have inside : [start] ⊆ start :: links.map Prod.snd := by simp
  have targeted (place : V) : targets links place ⊆ start :: links.map Prod.snd :=
    fun other taken => mem_cons_of_mem _ (mem_map_of_mem (mem_targets.mp taken))
  have first : Searching (targets links) levels start [(start, 0)] [start] [] := .begin
  obtain ⟨seen, done⟩ : ∃ seen, Searching (targets links) levels start [] seen (reached links start levels) :=
    first.run (nodup_singleton start) inside targeted (by simp)
  rw [done.collected]
  constructor
  · rintro ⟨place, depth, -, at_, above, taken⟩
    exact ⟨depth + 1, Nat.succ_pos depth, above, at_.1.step taken⟩
  · rintro ⟨steps, positive, bounded, walk⟩
    cases walk with
    | here => exact absurd positive (Nat.lt_irrefl 0)
    | @step depth place _ reached taken =>
      obtain ⟨least, near, at_⟩ := reached.exists_at
      refine ⟨place, least, done.frontier.exhausted ⟨least, at_.1, fun bound same => ?_⟩, at_, by omega, taken⟩
      obtain rfl := Option.some.inj same
      omega

end Search

/-- A levelled search reads each place of a level once and goes on with the targets of the places it read. -/
def levels (next : V → List V) : Nat → List V → List V → List V
  | 0, level, read => read ++ (level.filter (· ∉ read)).eraseDups
  | depth + 1, level, read =>
    let fresh := (level.filter (· ∉ read)).eraseDups
    let below := fresh.flatMap next
    if below.isEmpty then read ++ fresh else levels next depth below (read ++ fresh)

section Levels

variable {next : V → List V} {depth steps : Nat} {level read : List V} {start place : V}

theorem mem_read_of_level (member : place ∈ level) : place ∈ read ++ (level.filter (· ∉ read)).eraseDups := by
  by_cases known : place ∈ read
  · exact mem_append_left _ known
  · exact mem_append_right _ (mem_eraseDups.mpr (mem_filter.mpr ⟨member, decide_eq_true known⟩))

theorem mem_level_of_fresh (member : place ∈ (level.filter (· ∉ read)).eraseDups) : place ∈ level :=
  (mem_filter.mp (mem_eraseDups.mp member)).1

/-- A levelled search reads nothing but what it reaches within its depth. -/
theorem walk_of_mem_levels (known : ∀ place ∈ read, ∃ near ≤ steps + depth,
    Breadth.Walk (fun place target => target ∈ next place) {start} near place)
    (leveled : ∀ place ∈ level, Breadth.Walk (fun place target => target ∈ next place) {start} steps place)
    (member : place ∈ levels next depth level read) :
    ∃ near ≤ steps + depth, Breadth.Walk (fun place target => target ∈ next place) {start} near place := by
  induction depth generalizing level read steps with
  | zero =>
    rcases mem_append.mp member with old | fresh
    · exact known place old
    · exact ⟨steps, le_rfl, leveled place (mem_level_of_fresh fresh)⟩
  | succ depth ih =>
    have still (other : V) (within : other ∈ read ++ (level.filter (· ∉ read)).eraseDups) :
        ∃ near ≤ steps + (depth + 1), Breadth.Walk (fun place target => target ∈ next place) {start} near other := by
      rcases mem_append.mp within with old | fresh
      · exact known other old
      · exact ⟨steps, by omega, leveled other (mem_level_of_fresh fresh)⟩
    rw [levels] at member
    split at member
    · exact still place member
    · rw [show steps + (depth + 1) = steps + 1 + depth by omega] at still ⊢
      refine ih still (fun other below => ?_) member
      obtain ⟨before, fresh, taken⟩ := mem_flatMap.mp below
      exact (leveled before (mem_level_of_fresh fresh)).step taken

omit [DecidableEq V] in
theorem mem_of_walk (begun : start ∈ read)
    (walk : Breadth.Walk (fun place target => target ∈ next place) {start} steps place)
    (closed : ∀ place ∈ read, ∀ target ∈ next place, target ∈ read) : place ∈ read := by
  induction walk with
  | here single => exact Set.mem_singleton_iff.mp single ▸ begun
  | step _ taken ih => exact closed _ ih _ taken

/-- A levelled search has read all that its level reaches within its depth. -/
theorem mem_levels_of_walk (closed : ∀ place ∈ read, ∀ target ∈ next place, target ∈ read ∨ target ∈ level)
    (bounded : steps ≤ depth) (begun : start ∈ read ∨ start ∈ level)
    (walk : Breadth.Walk (fun place target => target ∈ next place) {start} steps place) :
    place ∈ levels next depth level read := by
  induction depth generalizing level read steps start with
  | zero =>
    obtain rfl : steps = 0 := by omega
    cases walk with
    | here single =>
      rw [Set.mem_singleton_iff.mp single]
      exact begun.elim (mem_append_left _) mem_read_of_level
  | succ depth ih =>
    have inside : start ∈ read ++ (level.filter (· ∉ read)).eraseDups :=
      begun.elim (mem_append_left _) mem_read_of_level
    have onward (before : V) (within : before ∈ read ++ (level.filter (· ∉ read)).eraseDups) (target : V)
      (taken : target ∈ next before) :
        target ∈ read ++ (level.filter (· ∉ read)).eraseDups ∨
          target ∈ (level.filter (· ∉ read)).eraseDups.flatMap next := by
      rcases mem_append.mp within with old | fresh
      · exact .inl ((closed before old target taken).elim (mem_append_left _) mem_read_of_level)
      · exact .inr (mem_flatMap.mpr ⟨before, fresh, taken⟩)
    rw [levels]
    split
    · rename_i none
      exact mem_of_walk inside walk fun before within target taken =>
        (onward before within target taken).resolve_right fun below => by
        rw [isEmpty_iff.mp none] at below
        cases below
    · rcases Nat.lt_or_ge steps (depth + 1) with short | long
      · exact ih onward (by omega) (.inl inside) walk
      · obtain rfl : steps = depth + 1 := by omega
        obtain ⟨second, taken, rest⟩ := walk.head
        exact ih onward le_rfl (onward start inside second taken) rest

theorem mem_levels : place ∈ levels next depth [start] [] ↔
    ∃ near ≤ depth, Breadth.Walk (fun place target => target ∈ next place) {start} near place := by
  constructor
  · intro member
    have leveled : ∀ other ∈ [start], Breadth.Walk (fun place target => target ∈ next place) {start} 0 other :=
      fun other single => .here (mem_singleton.mp single)
    obtain ⟨near, bounded, walk⟩ := walk_of_mem_levels (fun _ none => absurd none not_mem_nil) leveled member
    exact ⟨near, by omega, walk⟩
  · rintro ⟨near, bounded, walk⟩
    exact mem_levels_of_walk (fun _ none => absurd none not_mem_nil) bounded
      (.inr (mem_singleton_self start)) walk

end Levels

section Rewiring

variable {before after : V → List V} {seeds : V → Prop} {start place : V}

omit [DecidableEq V] in
/-- What links once reached and no longer do lies behind a changed place, and the old way to it still leads there. -/
theorem reaches_of_kept (kept : ∀ place, ¬ seeds place → before place ⊆ after place)
    (reaches : Reaches before start place) : Reaches after start place ∨
      ∃ seed, seeds seed ∧ Reaches before start seed ∧ Reaches after start seed ∧ Reaches before seed place := by
  induction reaches using Relation.ReflTransGen.head_induction_on with
  | refl => exact .inl .refl
  | @head start next taken reaches ih =>
    by_cases changed : seeds start
    · exact .inr ⟨start, changed, .refl, .refl, reaches.head taken⟩
    · have still := kept start changed taken
      rcases ih with through | ⟨seed, isSeed, old, new, beyond⟩
      · exact .inl (through.head still)
      · exact .inr ⟨seed, isSeed, old.head taken, new.head still, beyond⟩

end Rewiring

end Worklists
