import Mathlib.Data.List.Pairwise
import Mathlib.Data.Set.Insert

/- This file develops distances along a relation and the queue of a breadth-first search. -/

namespace Breadth
open List

variable {V : Type}

/-- A walk counts its steps from one of the starts. -/
inductive Walk (step : V → V → Prop) (starts : Set V) : Nat → V → Prop
  | here {start : V} (begun : start ∈ starts) : Walk step starts 0 start
  | step {depth : Nat} {place next : V} (reached : Walk step starts depth place) (taken : step place next) :
      Walk step starts (depth + 1) next

/-- A place lies at the length of its shortest walk. -/
def At (step : V → V → Prop) (starts : Set V) (depth : Nat) (place : V) : Prop :=
  Walk step starts depth place ∧ ∀ other, Walk step starts other place → depth ≤ other

/-- No limit admits every depth. -/
def Admits (limit : Option Nat) (depth : Nat) : Prop := ∀ bound, limit = some bound → depth ≤ bound

/-- A place is within the limit when some walk that short leads to it. -/
def Within (step : V → V → Prop) (starts : Set V) (limit : Option Nat) (place : V) : Prop :=
  ∃ depth, Walk step starts depth place ∧ Admits limit depth

section Distances

variable {step : V → V → Prop} {starts : Set V} {depth other : Nat} {place next : V} {limit : Option Nat}

theorem Admits.mono (admits : Admits limit depth) (below : other ≤ depth) : Admits limit other :=
  fun bound bounded => below.trans (admits bound bounded)

theorem Walk.exists_at (walk : Walk step starts depth place) : ∃ least ≤ depth, At step starts least place := by
  induction depth using Nat.strong_induction_on with
  | _ depth ih =>
    by_cases least : ∀ other, Walk step starts other place → depth ≤ other
    · exact ⟨depth, le_rfl, walk, least⟩
    · simp only [not_forall, not_le] at least
      obtain ⟨other, shorter, below⟩ := least
      obtain ⟨found, within, nearest⟩ := ih other below shorter
      exact ⟨found, by omega, nearest⟩

theorem At.unique (first : At step starts depth place) (second : At step starts other place) : depth = other :=
  le_antisymm (first.2 other second.1) (second.2 depth first.1)

/-- A place past the starts has a predecessor one step nearer. -/
theorem At.pred (at_ : At step starts (depth + 1) place) :
    ∃ before, At step starts depth before ∧ step before place := by
  obtain ⟨walk, least⟩ := at_
  cases walk with
  | @step _ before _ reached taken =>
    refine ⟨before, ⟨reached, fun other shorter => ?_⟩, taken⟩
    have below := least (other + 1) (shorter.step taken)
    omega

/-- On the way to a place lies one at each smaller depth. -/
theorem At.nearer (at_ : At step starts depth place) (below : other ≤ depth) :
    ∃ before, At step starts other before := by
  induction depth generalizing place with
  | zero =>
    obtain rfl : other = 0 := Nat.le_zero.mp below
    exact ⟨place, at_⟩
  | succ depth ih =>
    rcases Nat.lt_or_eq_of_le below with before | rfl
    · obtain ⟨last, nearest, _⟩ := at_.pred
      exact ih nearest (Nat.le_of_lt_succ before)
    · exact ⟨place, at_⟩

theorem at_zero_iff : At step starts 0 place ↔ place ∈ starts := by
  constructor
  · intro ⟨walk, _⟩
    cases walk
    assumption
  · intro begun
    exact ⟨.here begun, fun _ _ => Nat.zero_le _⟩

/-- A step leads at most one further. -/
theorem At.step_le (at_ : At step starts depth place) (taken : step place next) :
    ∃ further ≤ depth + 1, At step starts further next :=
  (at_.1.step taken).exists_at

theorem Within.at (within : Within step starts limit place) :
    ∃ depth, At step starts depth place ∧ Admits limit depth := by
  obtain ⟨depth, walk, admits⟩ := within
  obtain ⟨least, below, nearest⟩ := walk.exists_at
  exact ⟨least, nearest, admits.mono below⟩

/-- Walks compose with steps at their front. -/
theorem Walk.append {middle : V} (first : Walk step starts depth middle) (second : Walk step {middle} other place) :
    Walk step starts (depth + other) place := by
  induction second with
  | here begun =>
    rw [Set.mem_singleton_iff] at begun
    exact begun ▸ first
  | step _ taken ih => exact ih.step taken

theorem Walk.mono {wider : V → V → Prop} (wide : ∀ place next, step place next → wider place next)
    (walk : Walk step starts depth place) : Walk wider starts depth place := by
  induction walk with
  | here begun => exact .here begun
  | step _ taken ih => exact ih.step (wide _ _ taken)

/-- A walk can be taken backwards. -/
theorem Walk.reverse {start : V} (walk : Walk step {start} depth place) : Walk (fun first second => step second first)
    {place} depth start := by
  induction walk with
  | here begun => exact Set.mem_singleton_iff.mp begun ▸ .here rfl
  | @step depth before next _ taken ih =>
    have first : Walk (fun first second => step second first) {next} 1 before := .step (.here rfl) taken
    exact Nat.add_comm 1 depth ▸ first.append ih

/-- A walk of several steps starts with one of them. -/
theorem Walk.head {start : V} (walk : Walk step {start} (depth + 1) place) :
    ∃ second, step start second ∧ Walk step {second} depth place := by
  induction depth generalizing place with
  | zero =>
    cases walk with
    | step reached taken =>
      cases reached with
      | here single => exact ⟨place, Set.mem_singleton_iff.mp single ▸ taken, .here rfl⟩
  | succ depth ih =>
    cases walk with
    | step reached taken =>
      obtain ⟨second, first, rest⟩ := ih reached
      exact ⟨second, first, rest.step taken⟩

/-- A walk that changed steps cut off passes a changed place, and the old way to that place is still open. -/
theorem Walk.of_kept {after : V → V → Prop} {seeds : V → Prop}
    (kept : ∀ place, ¬ seeds place → ∀ next, step place next → after place next) (walk : Walk step starts depth place) :
    Walk after starts depth place ∨ ∃ seed near far, seeds seed ∧ near + far = depth ∧ 0 < far ∧
      Walk step starts near seed ∧ Walk after starts near seed ∧ Walk step {seed} far place := by
  induction walk with
  | here begun => exact .inl (.here begun)
  | @step depth before next reached taken ih =>
    rcases ih with through | ⟨seed, near, far, isSeed, sum, beyond, old, still, rest⟩
    · by_cases changed : seeds before
      · exact .inr ⟨before, depth, 1, changed, rfl, Nat.one_pos, reached, through, .step (.here rfl) taken⟩
      · exact .inl (through.step (kept before changed next taken))
    · exact .inr ⟨seed, near, far + 1, isSeed, by omega, Nat.succ_pos far, old, still, rest.step taken⟩

end Distances

/-- A queue of places by depth. Every visited place that may be left has all its neighbours visited or queued. -/
structure Frontier (step : V → V → Prop) (starts : Set V) (limit : Option Nat) (visited : V → Prop)
    (queue : List (V × Nat)) : Prop where
  begun : ∀ start ∈ starts, visited start ∨ (start, 0) ∈ queue
  routed : ∀ entry ∈ queue, Walk step starts entry.2 entry.1 ∧ Admits limit entry.2
  sorted : queue.Pairwise fun first second => first.2 ≤ second.2
  spans : ∀ entry ∈ queue, ∀ other ∈ queue, entry.2 ≤ other.2 + 1
  closed : ∀ place depth, visited place → At step starts depth place → Admits limit (depth + 1) →
    ∀ next, step place next → visited next ∨ ∃ further ≤ depth + 1, (next, further) ∈ queue

section Queue

variable {step : V → V → Prop} {starts : Set V} {limit : Option Nat} {visited : V → Prop} {queue rest : List (V × Nat)}
  {place : V} {depth : Nat}

theorem Frontier.start (start : V) : Frontier step {start} limit (fun _ => False) [(start, 0)] := by
  refine ⟨?_, ?_, pairwise_singleton _ _, ?_, fun _ _ visited => visited.elim⟩
  · intro other begun
    exact .inr (by rw [Set.mem_singleton_iff.mp begun]; exact mem_singleton_self _)
  · intro entry member
    rw [mem_singleton.mp member]
    exact ⟨.here rfl, fun _ _ => Nat.zero_le _⟩
  · intro entry member other among
    rw [mem_singleton.mp member]
    exact Nat.zero_le _

/-- A place that was not visited, but has a short walk, waits behind a queued place at most as deep. -/
theorem Frontier.waiting (frontier : Frontier step starts limit visited queue) (at_ : At step starts depth place)
    (admits : Admits limit depth) (fresh : ¬ visited place) : ∃ entry ∈ queue, entry.2 ≤ depth := by
  induction depth generalizing place with
  | zero =>
    rcases frontier.begun place (at_zero_iff.mp at_) with seen | queued
    · exact absurd seen fresh
    · exact ⟨_, queued, le_rfl⟩
  | succ depth ih =>
    obtain ⟨before, nearer, taken⟩ := at_.pred
    by_cases seen : visited before
    · rcases frontier.closed before depth seen nearer admits place taken with known | ⟨further, below, queued⟩
      · exact absurd known fresh
      · exact ⟨_, queued, below⟩
    · obtain ⟨entry, queued, below⟩ := ih nearer (admits.mono (Nat.le_succ depth)) seen
      exact ⟨entry, queued, by omega⟩

section

variable (frontier : Frontier step starts limit visited ((place, depth) :: rest))
include frontier

/-- A fresh place at the head of the queue carries its distance. -/
theorem Frontier.head_at (fresh : ¬ visited place) : At step starts depth place := by
  obtain ⟨walk, admits⟩ := frontier.routed (place, depth) mem_cons_self
  obtain ⟨least, below, nearest⟩ := walk.exists_at
  obtain ⟨entry, queued, bound⟩ := frontier.waiting nearest (admits.mono below) fresh
  have least_le : depth ≤ entry.2 := by
    rcases mem_cons.mp queued with rfl | later
    · exact le_rfl
    · exact rel_of_pairwise_cons frontier.sorted later
  have same : least = depth := by omega
  exact same ▸ nearest

/-- A place that was visited before is dropped. -/
theorem Frontier.skip (seen : visited place) : Frontier step starts limit visited rest := by
  have later {entry : V × Nat} (member : entry ∈ rest) : entry ∈ (place, depth) :: rest := mem_cons_of_mem _ member
  refine ⟨?_, fun entry member => frontier.routed entry (later member), (pairwise_cons.mp frontier.sorted).2,
    fun entry member other among => frontier.spans entry (later member) other (later among), ?_⟩
  · intro start begun
    rcases frontier.begun start begun with known | queued
    · exact .inl known
    · rcases mem_cons.mp queued with same | member
      · cases same
        exact .inl seen
      · exact .inr member
  · intro near nearDepth known at_ admits next taken
    rcases frontier.closed near nearDepth known at_ admits next taken with seenNext | ⟨further, below, queued⟩
    · exact .inl seenNext
    · rcases mem_cons.mp queued with same | member
      · cases same
        exact .inl seen
      · exact .inr ⟨further, below, member⟩

/-- A visited place hands its neighbours to the end of the queue, except for those that wait there already. -/
theorem Frontier.expand (fresh : ¬ visited place) {neighbours : List (V × Nat)} {after : V → Prop}
    (marks : ∀ other, after other ↔ visited other ∨ other = place)
    (sound : ∀ entry ∈ neighbours, entry.2 = depth + 1 ∧ step place entry.1 ∧ Admits limit (depth + 1))
    (complete : Admits limit (depth + 1) → ∀ next, step place next →
      after next ∨ ∃ further ≤ depth + 1, (next, further) ∈ rest ++ neighbours) :
    Frontier step starts limit after (rest ++ neighbours) := by
  have exact_ := frontier.head_at fresh
  have sorted := pairwise_cons.mp frontier.sorted
  have near {entry : V × Nat} (member : entry ∈ rest) : depth ≤ entry.2 ∧ entry.2 ≤ depth + 1 :=
    ⟨sorted.1 entry member, frontier.spans entry (mem_cons_of_mem _ member) _ mem_cons_self⟩
  have band {entry : V × Nat} (member : entry ∈ rest ++ neighbours) : depth ≤ entry.2 ∧ entry.2 ≤ depth + 1 := by
    rcases mem_append.mp member with old | new
    · exact near old
    · have deeper := (sound entry new).1
      omega
  refine ⟨?_, ?_, ?_, ?_, ?_⟩
  · intro start begun
    rcases frontier.begun start begun with known | queued
    · exact .inl ((marks start).mpr (.inl known))
    · rcases mem_cons.mp queued with same | member
      · cases same
        exact .inl ((marks _).mpr (.inr rfl))
      · exact .inr (mem_append_left _ member)
  · intro entry member
    rcases mem_append.mp member with old | new
    · exact frontier.routed entry (mem_cons_of_mem _ old)
    · obtain ⟨deeper, taken, admits⟩ := sound entry new
      rw [deeper]
      exact ⟨exact_.1.step taken, admits⟩
  · refine pairwise_append.mpr ⟨sorted.2, ?_, ?_⟩
    · apply pairwise_of_forall_mem_list
      intro first member second among
      rw [(sound first member).1, (sound second among).1]
    · intro first member second among
      rw [(sound second among).1]
      exact (near member).2
  · intro entry member other among
    have above := (band member).2
    have below := (band among).1
    omega
  · intro other otherDepth known at_ admits next taken
    rcases (marks other).mp known with old | rfl
    · rcases frontier.closed other otherDepth old at_ admits next taken with seen | ⟨further, below, queued⟩
      · exact .inl ((marks next).mpr (.inl seen))
      · rcases mem_cons.mp queued with same | member
        · cases same
          exact .inl ((marks _).mpr (.inr rfl))
        · exact .inr ⟨further, below, mem_append_left _ member⟩
    · obtain rfl := at_.unique exact_
      exact complete admits next taken

end

/-- When the queue is empty, every place within the limit was visited. -/
theorem Frontier.exhausted (frontier : Frontier step starts limit visited [])
    (within : Within step starts limit place) : visited place := by
  obtain ⟨depth, at_, admits⟩ := within.at
  by_contra fresh
  obtain ⟨entry, member, -⟩ := frontier.waiting at_ admits fresh
  cases member

end Queue

end Breadth
