import Mathlib.Data.List.AList
import Mathlib.Data.Fintype.Card

/- This file runs the calls of one session's service broker against each other. -/

namespace Codegraph.Mcp

def maxSessionProjectServices : Nat := 32

/-- A gate is the mutex of one project, named by the order in which the gates were made. -/
abbrev Gate := Nat

section Broker

variable {Project Service : Type} {count : Nat}

/-- A call owns a copy of its gate from `waiting` on, and it locks the gate from `preparing` on. -/
inductive Task (Project Service : Type) where
  | idle
  | findHandle (project : Project)
  | takeGate (project : Project)
  | waiting (project : Project) (gate : Gate)
  | preparing (project : Project) (gate : Gate)
  | starting (project : Project) (gate : Gate)
  | storing (project : Project) (gate : Gate) (service : Service)
  | releasing (project : Project) (gate : Gate)
  | unlocking (gate : Gate)
  | dropping (gate : Gate)

/-- A call that can still start a service of its project. -/
def Task.engaged : Task Project Service → Option (Project × Gate)
  | .waiting project gate => some (project, gate)
  | .preparing project gate => some (project, gate)
  | .starting project gate => some (project, gate)
  | .storing project gate _ => some (project, gate)
  | .releasing project gate => some (project, gate)
  | _ => none

def Task.owns : Task Project Service → Option Gate
  | .unlocking gate => some gate
  | .dropping gate => some gate
  | task => task.engaged.map Prod.snd

def Task.locks : Task Project Service → Option Gate
  | .waiting _ _ => none
  | .dropping _ => none
  | task => task.owns

/-- A call that starts a service and has not yet answered. -/
def Task.prepares : Task Project Service → Option Project
  | .starting project _ => some project
  | .storing project _ _ => some project
  | .releasing project _ => some project
  | _ => none

theorem Task.prepares_engaged {task : Task Project Service} {project : Project}
    (preparing : task.prepares = some project) :
    ∃ gate, task.engaged = some (project, gate) ∧ task.locks = some gate := by
  cases task <;> cases preparing <;> exact ⟨_, rfl, rfl⟩

theorem Task.engaged_owns {task : Task Project Service} {project : Project} {gate : Gate}
    (engaged : task.engaged = some (project, gate)) : task.owns = some gate := by
  cases task <;> cases engaged <;> rfl

structure Broker (Project Service : Type) (count : Nat) where
  handles : AList fun _ : Project => Service
  gates : AList fun _ : Project => Gate
  nextGate : Gate
  tasks : Fin count → Task Project Service

def Broker.new : Broker Project Service count := ⟨∅, ∅, 0, fun _ => .idle⟩

variable [DecidableEq Project]

def Broker.put (broker : Broker Project Service count) (thread : Fin count) (task : Task Project Service) :
    Broker Project Service count :=
  { broker with tasks := Function.update broker.tasks thread task }

def Broker.locked (broker : Broker Project Service count) (gate : Gate) : Bool :=
  (List.finRange count).any fun thread => (broker.tasks thread).locks = some gate

/-- The map's own reference to a gate and those of the calls. -/
def Broker.strongCount (broker : Broker Project Service count) (gate : Gate) : Nat :=
  (broker.gates.entries.filter fun entry => entry.2 = gate).length +
    (Finset.univ.filter fun thread => (broker.tasks thread).owns = some gate).card

inductive Started (Service : Type) where
  | ready (service : Service)
  | failed
  | panicked

/-- Whether the service that a call finds is live, and how its own start ends. -/
structure Answer (Service : Type) where
  live : Bool
  started : Started Service

/-- A stale handle is given up, and the call prepares its project again. -/
def findHandle (broker : Broker Project Service count) (thread : Fin count) (project : Project) (live : Bool) :
    Broker Project Service count :=
  if (broker.handles.lookup project).isSome then
    if live then broker.put thread .idle
    else ({ broker with handles := broker.handles.erase project } : Broker Project Service count).put thread
      (.takeGate project)
  else broker.put thread (.takeGate project)

/-- A project without a gate takes one of the session's slots. -/
def takeGate (broker : Broker Project Service count) (thread : Fin count) (project : Project) :
    Broker Project Service count :=
  match broker.gates.lookup project with
  | some gate => broker.put thread (.waiting project gate)
  | none =>
    if maxSessionProjectServices ≤ broker.gates.entries.length then broker.put thread .idle
    else
      ({ broker with
        gates := broker.gates.insert project broker.nextGate
        nextGate := broker.nextGate + 1 } : Broker Project Service count).put thread
          (.waiting project broker.nextGate)

/-- A failed start gives its slot back when no other call owns the gate. -/
def releaseGate (broker : Broker Project Service count) (thread : Fin count) (project : Project) (gate : Gate) :
    Broker Project Service count :=
  if broker.gates.lookup project = some gate ∧ broker.strongCount gate = 2 then
    ({ broker with gates := broker.gates.erase project } : Broker Project Service count).put thread (.unlocking gate)
  else broker.put thread (.unlocking gate)

/-- One atomic step of a call. A call that waits for a locked gate has none. -/
def Broker.proceed (broker : Broker Project Service count) (thread : Fin count) (answer : Answer Service) :
    Option (Broker Project Service count) :=
  match broker.tasks thread with
  | .idle => none
  | .findHandle project => some (findHandle broker thread project answer.live)
  | .takeGate project => some (takeGate broker thread project)
  | .waiting project gate => if broker.locked gate then none else some (broker.put thread (.preparing project gate))
  | .preparing project gate =>
    some (broker.put thread
      (if (broker.handles.lookup project).isSome then .unlocking gate else .starting project gate))
  | .starting project gate =>
    match answer.started with
    | .ready service => some (broker.put thread (.storing project gate service))
    | .failed => some (broker.put thread (.releasing project gate))
    | .panicked => some (broker.put thread (.unlocking gate))
  | .storing project gate service =>
    some { broker.put thread (.unlocking gate) with handles := broker.handles.insert project service }
  | .releasing project gate => some (releaseGate broker thread project gate)
  | .unlocking gate => some (broker.put thread (.dropping gate))
  | .dropping _ => some (broker.put thread .idle)

inductive Action (Project Service : Type) where
  | ensure (project : Project)
  | proceed (answer : Answer Service)

/-- An idle thread may call for any project. -/
def Broker.step (broker : Broker Project Service count) (thread : Fin count) :
    Action Project Service → Option (Broker Project Service count)
  | .ensure project =>
    match broker.tasks thread with
    | .idle => some (broker.put thread (.findHandle project))
    | _ => none
  | .proceed answer => broker.proceed thread answer

def Broker.run :
    List (Fin count × Action Project Service) → Broker Project Service count → Option (Broker Project Service count)
  | [], broker => some broker
  | (thread, action) :: rest, broker => (broker.step thread action).bind (Broker.run rest)

/-- What every step keeps: a call that can still start a service owns the gate that the map names. -/
structure Broker.Kept (broker : Broker Project Service count) : Prop where
  few : broker.gates.entries.length ≤ maxSessionProjectServices
  engaged : ∀ thread project gate, (broker.tasks thread).engaged = some (project, gate) →
    broker.gates.lookup project = some gate
  alone : ∀ first second gate, (broker.tasks first).locks = some gate → (broker.tasks second).locks = some gate →
    first = second
  vacant : ∀ thread project, (broker.tasks thread).prepares = some project → project ∉ broker.handles
  covered : ∀ project, project ∈ broker.handles → project ∈ broker.gates

variable {broker next : Broker Project Service count} {thread : Fin count} {project : Project} {gate : Gate}
  {task : Task Project Service}

theorem Broker.Kept.new : (Broker.new : Broker Project Service count).Kept where
  few := Nat.zero_le _
  engaged _ _ _ found := by cases found
  alone _ _ _ found := by cases found
  vacant _ _ found := by cases found
  covered project member := absurd member (AList.notMem_empty project)

/-- A thread may move on to a task that fits the maps and the locks of the others. -/
theorem Broker.Kept.put (kept : broker.Kept)
    (engaged : ∀ project gate, task.engaged = some (project, gate) → broker.gates.lookup project = some gate)
    (alone : ∀ other gate, task.locks = some gate → (broker.tasks other).locks = some gate → other = thread)
    (vacant : ∀ project, task.prepares = some project → project ∉ broker.handles) : (broker.put thread task).Kept where
  few := kept.few
  engaged other project gate found := by
    by_cases same : other = thread
    · subst same
      exact engaged project gate (by simpa [Broker.put] using found)
    · exact kept.engaged other project gate (by simpa [Broker.put, same] using found)
  alone first second gate left right := by
    by_cases here : first = thread
    · by_cases there : second = thread
      · rw [here, there]
      · subst here
        exact (alone second gate (by simpa [Broker.put] using left) (by simpa [Broker.put, there] using right)).symm
    · by_cases there : second = thread
      · subst there
        exact alone first gate (by simpa [Broker.put] using right) (by simpa [Broker.put, here] using left)
      · exact kept.alone first second gate (by simpa [Broker.put, here] using left)
          (by simpa [Broker.put, there] using right)
  vacant other project found := by
    by_cases same : other = thread
    · subst same
      exact vacant project (by simpa [Broker.put] using found)
    · exact kept.vacant other project (by simpa [Broker.put, same] using found)
  covered := kept.covered

/-- A task that starts nothing and locks no more than the thread did before. -/
theorem Broker.Kept.rest (kept : broker.Kept) (idle : task.engaged = none)
    (locks : ∀ gate, task.locks = some gate → (broker.tasks thread).locks = some gate) :
    (broker.put thread task).Kept := by
  have unprepared (project : Project) : task.prepares ≠ some project := by
    intro preparing
    obtain ⟨gate, engaged, -⟩ := Task.prepares_engaged preparing
    rw [idle] at engaged
    cases engaged
  refine kept.put (fun project gate found => ?_) (fun other gate own others => ?_)
    (fun project found => absurd found (unprepared project))
  · rw [idle] at found
    cases found
  · exact kept.alone other thread gate others (locks gate own)

/-- A task that goes on with the gate that the thread has locked. -/
theorem Broker.Kept.goOn (kept : broker.Kept) (engaged : (broker.tasks thread).engaged = some (project, gate))
    (locked : (broker.tasks thread).locks = some gate) (same : task.engaged = some (project, gate))
    (locks : task.locks = some gate) (vacant : project ∉ broker.handles) : (broker.put thread task).Kept := by
  refine kept.put (fun other found taken => ?_) (fun other found own others => ?_) (fun other found => ?_)
  · rw [same] at taken
    cases taken
    exact kept.engaged thread project gate engaged
  · rw [locks] at own
    cases own
    exact kept.alone other thread gate others locked
  · obtain ⟨_, taken, -⟩ := Task.prepares_engaged found
    rw [same] at taken
    cases taken
    exact vacant

theorem Broker.Kept.findHandle (kept : broker.Kept) (live : Bool) : (findHandle broker thread project live).Kept := by
  have erased : ({ broker with handles := broker.handles.erase project } : Broker Project Service count).Kept :=
    ⟨kept.few, kept.engaged, kept.alone,
      fun other found preparing member => kept.vacant other found preparing (AList.mem_erase.mp member).2,
      fun found member => kept.covered found (AList.mem_erase.mp member).2⟩
  unfold Codegraph.Mcp.findHandle
  split
  · split
    · exact kept.rest rfl fun _ own => by cases own
    · exact erased.rest rfl fun _ own => by cases own
  · exact kept.rest rfl fun _ own => by cases own

theorem Broker.Kept.wait (kept : broker.Kept) (found : broker.gates.lookup project = some gate) :
    (broker.put thread (.waiting project gate)).Kept := by
  refine kept.put (fun other taken same => ?_) (fun _ _ own => by cases own) (fun _ preparing => by cases preparing)
  cases same
  exact found

/-- A new slot is taken only while one is left. -/
theorem Broker.Kept.takeGate (kept : broker.Kept) : (takeGate broker thread project).Kept := by
  unfold Codegraph.Mcp.takeGate
  cases found : broker.gates.lookup project with
  | some gate => exact kept.wait found
  | none =>
    have absent : project ∉ broker.gates := AList.lookup_eq_none.mp found
    dsimp only
    split
    · exact kept.rest rfl fun _ own => by cases own
    · rename_i room
      refine .wait
        ⟨?_, fun other named gate engaged => ?_, kept.alone, kept.vacant, fun named member => ?_⟩
        (AList.lookup_insert _)
      · rw [AList.entries_insert_of_notMem absent, List.length_cons]
        omega
      · have other_ := kept.engaged other named gate engaged
        have apart : named ≠ project := fun same => by
          rw [same, found] at other_
          cases other_
        rwa [AList.lookup_insert_ne apart]
      · exact (AList.mem_insert _).mpr (.inr (kept.covered named member))

/-- The service of a project that has none yet is retained. -/
theorem Broker.Kept.store (kept : broker.Kept) {service : Service}
    (busy : broker.tasks thread = .storing project gate service) :
    ({ broker.put thread (.unlocking gate) with handles := broker.handles.insert project service } : Broker Project
      Service count).Kept := by
  have mine : broker.gates.lookup project = some gate := kept.engaged thread project gate (by rw [busy]; rfl)
  have moved : (broker.put thread (.unlocking gate)).Kept := kept.rest rfl fun other own => by
    rw [busy]
    exact own
  refine ⟨moved.few, moved.engaged, moved.alone, fun other named preparing member => ?_, fun named member => ?_⟩
  · rcases (AList.mem_insert _).mp member with rfl | before
    · -- Another call that prepares the project would hold the same lock.
      obtain ⟨taken, engaged, locked⟩ := Task.prepares_engaged preparing
      have same := moved.engaged other named taken engaged
      rw [show (broker.put thread (.unlocking gate)).gates = broker.gates from rfl, mine] at same
      cases same
      have here := moved.alone other thread gate locked (by simp [Broker.put, Task.locks, Task.owns])
      subst here
      simp [Broker.put, Task.prepares] at preparing
    · exact moved.vacant other named preparing before
  · rcases (AList.mem_insert _).mp member with rfl | before
    · exact AList.lookup_isSome.mp
        (by rw [show (broker.put thread (.unlocking gate)).gates = broker.gates from rfl, mine]; rfl)
    · exact moved.covered named before

/-- Two calls that own a gate of the map make more than two references. -/
theorem Broker.strongCount_ne_two {other : Fin count} (found : broker.gates.lookup project = some gate)
    (distinct : other ≠ thread)
    (owns : (broker.tasks thread).owns = some gate) (others : (broker.tasks other).owns = some gate) :
    broker.strongCount gate ≠ 2 := by
  have inMap : 0 < (broker.gates.entries.filter fun entry => entry.2 = gate).length :=
    List.length_pos_of_mem (List.mem_filter.mpr ⟨AList.mem_lookup_iff.mp found, decide_eq_true rfl⟩)
  have inCalls : 1 < (Finset.univ.filter fun thread => (broker.tasks thread).owns = some gate).card :=
    Finset.one_lt_card.mpr ⟨other, by simpa using others, thread, by simpa using owns, distinct⟩
  unfold Broker.strongCount
  omega

/-- A slot that is given back is nobody else's, and its project has no service. -/
theorem Broker.Kept.releaseGate (kept : broker.Kept) (busy : broker.tasks thread = .releasing project gate) :
    (releaseGate broker thread project gate).Kept := by
  have locks (other : Gate) (own : (.unlocking gate : Task Project Service).locks = some other) :
      (broker.tasks thread).locks = some other := by
    rw [busy]
    exact own
  unfold Codegraph.Mcp.releaseGate
  split
  · rename_i last
    have moved : (broker.put thread (.unlocking gate)).Kept := kept.rest rfl locks
    refine ⟨?_, fun other named taken engaged => ?_, moved.alone, moved.vacant, fun named member => ?_⟩
    · have fewer : (broker.gates.erase project).keys.length ≤ broker.gates.keys.length := by
        rw [AList.keys_erase]
        exact (List.erase_sublist).length_le
      have known := kept.few
      simp only [AList.keys, List.keys, List.length_map] at fewer
      exact fewer.trans known
    · have before := moved.engaged other named taken engaged
      have apart : named ≠ project := by
        rintro rfl
        have same : gate = taken := Option.some.inj (last.1.symm.trans before)
        subst same
        have elsewhere : other ≠ thread := by
          rintro rfl
          simp [Broker.put, Task.engaged] at engaged
        have others : (broker.tasks other).owns = some gate := by
          have owned := Task.engaged_owns engaged
          simpa [Broker.put, elsewhere] using owned
        exact Broker.strongCount_ne_two last.1 elsewhere (by rw [busy]; rfl) others last.2
      exact (AList.lookup_erase_ne apart).trans before
    · have gone : project ∉ broker.handles := kept.vacant thread project (by rw [busy]; rfl)
      exact AList.mem_erase.mpr ⟨fun same => gone (same ▸ member), moved.covered named member⟩
  · exact kept.rest rfl locks

/-- Every step of a thread keeps the broker. -/
theorem Broker.Kept.proceed (kept : broker.Kept) {answer : Answer Service}
    (moved : broker.proceed thread answer = some next) : next.Kept := by
  unfold Broker.proceed at moved
  split at moved
  · cases moved
  · cases moved
    exact kept.findHandle answer.live
  · cases moved
    exact kept.takeGate
  · rename_i project gate busy
    split at moved
    · cases moved
    · rename_i free
      cases moved
      refine kept.put (fun other taken same => ?_) (fun other taken own others => ?_)
        (fun _ preparing => by cases preparing)
      · cases same
        exact kept.engaged thread project gate (by rw [busy]; rfl)
      · cases own
        exact absurd (List.any_eq_true.mpr ⟨other, List.mem_finRange other, decide_eq_true others⟩) free
  · rename_i project gate busy
    cases moved
    split
    · exact kept.rest rfl fun other own => by
        rw [busy]
        exact own
    · rename_i missing
      exact kept.goOn (by rw [busy]; rfl) (by rw [busy]; rfl) rfl rfl fun member =>
        missing (AList.lookup_isSome.mpr member)
  · rename_i project gate busy
    have vacant : project ∉ broker.handles := kept.vacant thread project (by rw [busy]; rfl)
    split at moved
    · cases moved
      exact kept.goOn (by rw [busy]; rfl) (by rw [busy]; rfl) rfl rfl vacant
    · cases moved
      exact kept.goOn (by rw [busy]; rfl) (by rw [busy]; rfl) rfl rfl vacant
    · cases moved
      exact kept.rest rfl fun other own => by
        rw [busy]
        exact own
  · rename_i busy
    cases moved
    exact kept.store busy
  · rename_i busy
    cases moved
    exact kept.releaseGate busy
  · cases moved
    exact kept.rest rfl fun _ own => by cases own
  · cases moved
    exact kept.rest rfl fun _ own => by cases own

theorem Broker.Kept.step (kept : broker.Kept) {action : Action Project Service}
    (moved : broker.step thread action = some next) : next.Kept := by
  cases action with
  | ensure project =>
    unfold Broker.step at moved
    dsimp only at moved
    split at moved
    · cases moved
      exact kept.rest rfl fun _ own => by cases own
    · cases moved
  | proceed answer => exact kept.proceed moved

theorem Broker.Kept.run {schedule : List (Fin count × Action Project Service)} (kept : broker.Kept)
    (ran : Broker.run schedule broker = some next) : next.Kept := by
  induction schedule generalizing broker with
  | nil =>
    cases ran
    exact kept
  | cons first rest ih =>
    obtain ⟨middle, moved, later⟩ := Option.bind_eq_some_iff.mp ran
    exact ih (kept.step moved) later

/-- Every retained service occupies a slot of its own. -/
theorem Broker.Kept.handles_le (kept : broker.Kept) : broker.handles.entries.length ≤ broker.gates.entries.length := by
  have inside : broker.handles.keys ⊆ broker.gates.keys := fun project member =>
    AList.mem_keys.mp (kept.covered project (AList.mem_keys.mpr member))
  have fewer := (List.subperm_of_subset broker.handles.keys_nodup inside).length_le
  simpa only [AList.keys, List.keys, List.length_map] using fewer

/-- In every run, a session retains at most 32 services, one call at a time prepares a project, and no start replaces
a service. -/
theorem session_services_stay_bounded (schedule : List (Fin count × Action Project Service))
    (reached : Broker Project Service count) (ran : Broker.run schedule Broker.new = some reached) :
    reached.handles.entries.length ≤ maxSessionProjectServices ∧
      (∀ first second project, (reached.tasks first).prepares = some project →
        (reached.tasks second).prepares = some project →
        first = second) ∧
      ∀ thread project, (reached.tasks thread).prepares = some project → project ∉ reached.handles := by
  have kept := Broker.Kept.new.run ran
  refine ⟨kept.handles_le.trans kept.few, fun first second project left right => ?_, kept.vacant⟩
  obtain ⟨gate, engaged, locked⟩ := Task.prepares_engaged left
  obtain ⟨taken, others, lockedToo⟩ := Task.prepares_engaged right
  have same : gate = taken :=
    Option.some.inj ((kept.engaged first project gate engaged).symm.trans (kept.engaged second project taken others))
  exact kept.alone first second gate locked (same ▸ lockedToo)

end Broker

/-- Two calls for one project, of which the first starts its service while the second waits. -/
def sharedProject : List (Fin 2 × Action Nat Nat) :=
  [(0, .ensure 7), (1, .ensure 7), (0, .proceed ⟨true, .failed⟩), (1, .proceed ⟨true, .failed⟩),
    (0, .proceed ⟨true, .failed⟩),
    (1, .proceed ⟨true, .failed⟩), (0, .proceed ⟨true, .failed⟩), (0, .proceed ⟨true, .failed⟩)]

/-- Two threads that ask for one project. -/
theorem shared_project_starts_once : ∃ reached, Broker.run sharedProject Broker.new = some reached ∧
    (reached.tasks 0).prepares = some 7 ∧ (reached.tasks 1).prepares = none ∧
    reached.handles.entries.length ≤ maxSessionProjectServices ∧
      (∀ first second project, (reached.tasks first).prepares = some project →
        (reached.tasks second).prepares = some project →
        first = second) ∧
      ∀ thread project, (reached.tasks thread).prepares = some project → project ∉ reached.handles :=
  ⟨_, rfl, rfl, rfl, session_services_stay_bounded sharedProject _ rfl⟩

end Codegraph.Mcp
