import Codegraph.Macros.Walk

/- This file shows that a walk sees the same macros whether or not it skips the visits that change nothing. -/

namespace Codegraph.Macros
open List
open Watch.Scope (Text)

/-- An event that takes place changes nothing. -/
def FileEvent.Still (known : Known) (file : Text) (active : Truth) : FileEvent → Prop
  | .define name _ functionLike value wrapsItself =>
    known.redefined name active true (functionLike && !wrapsItself) value = known.definitions name ∧
      (functionLike → name ∈ known.macroNames)
  | .undef name _ => known.redefined name active false false [] = known.definitions name
  | .once _ => Truth.or (known.once file) active = known.once file
  | .branch .. | .inclusion .. => True

/-- The rest of a visit changes nothing, as long as the cut files are open. -/
inductive Quiet (project : Project) (known : Known) (cuts : List Text) :
    (file : Text) → (inherited : Truth) → List FileEvent → (active : Truth) → List (Truth × Truth) → Prop
  | done {file inherited active branches} : Quiet project known cuts file inherited [] active branches
  | branch {file inherited active branches op expression guard line rest}
      (later : Quiet project known cuts file inherited rest
        (known.branch inherited active branches op expression guard).1
        (known.branch inherited active branches op expression guard).2) :
      Quiet project known cuts file inherited (.branch op expression guard line :: rest) active branches
  | event {file inherited active branches event rest}
      (other : ∀ op expression guard line, event ≠ .branch op expression guard line)
      (still : active ≠ some false → event.Still known file active)
      (enters : ∀ quote spec line target, event = .inclusion quote spec line → active ≠ some false →
        project.resolveInclude file quote spec = some target → known.once target ≠ some true → target ∉ cuts →
        Quiet project known cuts target active (project.events target) active [])
      (later : Quiet project known cuts file inherited rest active branches) :
      Quiet project known cuts file inherited (event :: rest) active branches

variable {project : Project} {known : Known} {walk : Walk} {cuts more : List Text} {file target name : Text}
  {inherited active : Truth} {branches : List (Truth × Truth)} {events rest : List FileEvent} {event : FileEvent}
  {line : Nat}

section Changes

namespace Walk

variable {line : Nat} {defining macroNow functionLike : Bool} {value : Text}

theorem record_version_le (walk : Walk) :
    walk.version ≤ (walk.record name line active defining macroNow functionLike value).version :=
  Nat.le_trans (Nat.le_add_right _ _) (Nat.le_add_right _ _)

/-- A definition that keeps the version keeps all that is known. -/
theorem still_of_record (walk : Walk)
    (same : (walk.record name line active defining macroNow functionLike value).version = walk.version) :
    walk.redefined name active defining macroNow value = walk.definitions name ∧
      (functionLike → name ∈ walk.macroNames) := by
  simp only [record] at same
  refine ⟨?_, fun function => ?_⟩
  · by_contra changed
    rw [if_neg (Ne.symm changed)] at same
    omega
  · by_contra new
    rw [@if_pos (functionLike ∧ name ∉ walk.macroNames) _ ⟨function, new⟩] at same
    omega

theorem record_known (walk : Walk) (line : Nat)
    (same : walk.redefined name active defining macroNow value = walk.definitions name)
    (inside : functionLike → name ∈ walk.macroNames) :
    (walk.record name line active defining macroNow functionLike value).toKnown = walk.toKnown := by
  have names : (if functionLike then insert name walk.macroNames else walk.macroNames) = walk.macroNames := by
    split
    · exact Finset.insert_eq_self.mpr (inside ‹_›)
    · rfl
  simp only [record, names, same, Function.update_eq_self]

/-- A macro name's change is noted, and no other. -/
theorem record_events (queried : Text) :
    (walk.record name line active defining macroNow functionLike value).timeline.events queried =
      walk.timeline.events queried ++
        if queried = name ∧ name ∈ (walk.record name line active defining macroNow functionLike value).macroNames then
          [(line, (walk.redefined name active defining macroNow value).macro_)]
        else [] := by
  simp only [record]
  generalize (if functionLike then insert name walk.macroNames else walk.macroNames) = names
  by_cases inside : name ∈ names
  · rw [if_pos inside]
    change Function.update walk.timeline.events name _ queried = _
    by_cases here : queried = name
    · subst here
      rw [if_pos ⟨rfl, inside⟩, Function.update_self]
    · rw [if_neg fun both => here both.1, Function.update_of_ne here, append_nil]
  · rw [if_neg inside, if_neg fun both => inside both.2, append_nil]

theorem record_cutoff :
    (walk.record name line active defining macroNow functionLike value).timeline.cutoff = walk.timeline.cutoff := by
  simp only [record]
  generalize (if functionLike then insert name walk.macroNames else walk.macroNames) = names
  split <;> rfl

theorem setOnce_version_le (walk : Walk) : walk.version ≤ (walk.setOnce file active).version := by
  simp only [setOnce]
  split
  · exact Nat.le_succ _
  · exact Nat.le_refl _

theorem still_of_setOnce (walk : Walk) (same : (walk.setOnce file active).version = walk.version) :
    Truth.or (walk.once file) active = walk.once file := by
  simp only [setOnce] at same
  by_contra changed
  rw [if_pos changed] at same
  exact absurd same (Nat.succ_ne_self _)

theorem setOnce_known (walk : Walk) (same : Truth.or (walk.once file) active = walk.once file) :
    (walk.setOnce file active).toKnown = walk.toKnown := by
  simp only [setOnce, same, Function.update_eq_self]

end Walk

end Changes

section Visits

/-- A whole visit changes nothing. -/
def QuietVisit (project : Project) (known : Known) (cuts : List Text) (file : Text) (inherited : Truth) : Prop :=
  Quiet project known cuts file inherited (project.events file) inherited []

theorem Quiet.mono (quiet : Quiet project known cuts file inherited events active branches) (grow : cuts ⊆ more) :
    Quiet project known more file inherited events active branches := by
  induction quiet with
  | done => exact .done
  | branch _ later => exact .branch later
  | event other still _ _ enters later =>
    exact .event other still
      (fun quote spec line target same running found free outside =>
        enters quote spec line target same running found free fun inside => outside (grow inside))
      later

end Visits

section Timelines

/-- The last change of a name at or before a line. -/
def latest (events : List (Nat × Truth)) (line : Nat) : Option Truth :=
  (events.reverse.find? fun event => event.1 ≤ line).map Prod.snd

theorem latest_concat (events : List (Nat × Truth)) (at_ : Nat) (truth : Truth) (line : Nat) :
    latest (events ++ [(at_, truth)]) line = if at_ ≤ line then some truth else latest events line := by
  rw [latest, reverse_append, reverse_singleton, singleton_append, find?_cons]
  by_cases before : at_ ≤ line
  · rw [if_pos before]
    simp [before]
  · rw [if_neg before]
    simp [before, latest]

/-- Where all changes are before a line, the last one counts. -/
theorem latest_last {events : List (Nat × Truth)} {at_ : Nat} {truth : Truth}
    (last : events.getLast? = some (at_, truth))
    (before : ∀ event ∈ events, event.1 ≤ line) : latest events line = some truth := by
  obtain ⟨front, rfl⟩ := getLast?_eq_some_iff.mp last
  rw [latest_concat, if_pos]
  exact before (at_, truth) (mem_append_right _ (mem_singleton_self _))

/-- Changes of a line that repeat what is known. -/
def Repeats (known : Known) (line : Nat) (timeline later : Timeline) : Prop :=
  later.cutoff = timeline.cutoff ∧
    ∀ name, ∃ count,
      later.events name = timeline.events name ++ List.replicate count (line, (known.definitions name).macro_) ∧
      (0 < count → name ∈ known.macroNames)

theorem Repeats.refl (known : Known) (line : Nat) (timeline : Timeline) : Repeats known line timeline timeline :=
  ⟨rfl, fun _ => ⟨0, by simp, fun positive => absurd positive (Nat.lt_irrefl 0)⟩⟩

theorem Repeats.trans {first second third : Timeline} (before : Repeats known line first second)
    (after : Repeats known line second third) : Repeats known line first third := by
  refine ⟨after.1.trans before.1, fun name => ?_⟩
  obtain ⟨count, same, inside⟩ := before.2 name
  obtain ⟨count', same', inside'⟩ := after.2 name
  refine ⟨count + count', ?_, fun positive => ?_⟩
  · rw [same', same, append_assoc, replicate_append_replicate]
  · rcases Nat.eq_zero_or_pos count with rfl | positive'
    · exact inside' (by omega)
    · exact inside positive'

/-- The last change of a macro name is what is known of it, and no change lies behind a line. -/
structure Settled (known : Known) (line : Nat) (timeline : Timeline) : Prop where
  last : ∀ name ∈ known.macroNames, ∃ at_, (timeline.events name).getLast? = some (at_, (known.definitions name).macro_)
  before : ∀ name, ∀ event ∈ timeline.events name, event.1 ≤ line

theorem Settled.later {later : Nat} {timeline : Timeline} (settled : Settled known line timeline) (le : line ≤ later) :
    Settled known later timeline :=
  ⟨settled.last, fun name event inside => Nat.le_trans (settled.before name event inside) le⟩

/-- Changes that repeat what is known are not seen. -/
theorem Repeats.lookup {timeline later skipped : Timeline} {name : Text} {place : Nat}
    (repeats : Repeats known line timeline later)
    (settled : Settled known line skipped) (same : timeline.lookup name place = skipped.lookup name place) :
    later.lookup name place = skipped.lookup name place := by
  obtain ⟨count, appended, inside⟩ := repeats.2 name
  rw [← same]
  change latest (later.events name) place = latest (timeline.events name) place
  rw [appended]
  clear appended
  induction count with
  | zero => rw [replicate_zero, append_nil]
  | succ count ih =>
    rw [replicate_succ', ← append_assoc, latest_concat]
    split
    · obtain ⟨at_, last⟩ := settled.last name (inside (Nat.succ_pos _))
      refine .trans ?_ same.symm
      exact (latest_last last fun event member => Nat.le_trans (settled.before name event member) ‹_›).symm
    · exact ih fun _ => inside (Nat.succ_pos _)

end Timelines

section Reentry

/-- A visit as it begins. -/
def Frame.entering (project : Project) (file : Text) (inherited : Truth) (includeLine : Option Nat)
    (start firstCut : Nat) : Frame :=
  { file, events := project.events file, inherited, active := inherited, branches := [], includeLine, start, firstCut }

/-- The walk stays on a frame, and knows what it knew. -/
structure Stays (line : Nat) (walk : Walk) (frame : Frame) (after : Walk) : Prop where
  known : after.toKnown = walk.toKnown
  stack : after.stack = frame :: walk.stack
  scanning : after.scanning = walk.scanning
  budget : after.budget = walk.budget
  timeline : Repeats walk.toKnown line walk.timeline after.timeline

/-- Recording a definition that is known already lets the walk stay. -/
theorem Stays.record {frame : Frame} {defining macroNow functionLike : Bool} {value : Text}
    (same : walk.redefined name active defining macroNow value = walk.definitions name)
    (inside : functionLike → name ∈ walk.macroNames) : Stays line walk frame
      (({ walk with stack := frame :: walk.stack } : Walk).record name line active defining macroNow functionLike
        value) where
  known := Walk.record_known { walk with stack := frame :: walk.stack } line same inside
  stack := rfl
  scanning := rfl
  budget := rfl
  timeline := by
    refine ⟨Walk.record_cutoff, fun other => ?_⟩
    rw [Walk.record_events]
    split
    · rename_i noted
      obtain ⟨rfl, member⟩ := noted
      refine ⟨1, congrArg _ (congrArg (fun found : Definition => [(line, found.macro_)]) same), fun _ => ?_⟩
      have names := congrArg Known.macroNames
        (Walk.record_known { walk with stack := frame :: walk.stack } line same inside)
      rwa [names] at member
    · exact ⟨0, by simp, fun positive => absurd positive (Nat.lt_irrefl 0)⟩

/-- An event that changes nothing leaves the walk on its frame, or enters a file. -/
theorem handle_still (project : Project) (walk : Walk) (frame : Frame)
    (other : ∀ op expression guard line, event ≠ .branch op expression guard line)
    (still : frame.active ≠ some false → event.Still walk.toKnown frame.file frame.active)
    (place : frame.includeLine = some line) : Stays line walk frame (walk.handle project false frame event) ∨
      ∃ quote spec at_ target, event = .inclusion quote spec at_ ∧ frame.active ≠ some false ∧
        project.resolveInclude frame.file quote spec = some target ∧ walk.once target ≠ some true ∧
          target ∉ walk.scanning ∧
        walk.handle project false frame event =
          { walk with
            scanning := insert target walk.scanning
            stack := .entering project target frame.active (some line) walk.version walk.cuts.length :: frame ::
              walk.stack } := by
  have idle : Stays line walk frame { walk with stack := frame :: walk.stack } :=
    ⟨rfl, rfl, rfl, rfl, .refl _ _ _⟩
  have at_ (l : Nat) : frame.at_ l = line := by rw [Frame.at_, place, Option.getD_some]
  by_cases off : frame.active = some false
  · left
    cases event with
    | branch op expression guard l => exact absurd rfl (other op expression guard l)
    | define | undef | once | inclusion => simpa only [Walk.handle, if_pos off] using idle
  cases event with
  | branch op expression guard l => exact absurd rfl (other op expression guard l)
  | once l =>
    left
    simp only [Walk.handle, if_neg off]
    exact ⟨Walk.setOnce_known { walk with stack := frame :: walk.stack } (still off), rfl, rfl, rfl,
      .refl _ _ _⟩
  | define name l functionLike value wrapsItself =>
    left
    simp only [Walk.handle, if_neg off, at_]
    exact .record (still off).1 (still off).2
  | undef name l =>
    left
    simp only [Walk.handle, if_neg off, at_]
    exact .record (still off) (by simp)
  | inclusion quote spec l =>
    simp only [Walk.handle, if_neg off, at_]
    cases found : project.resolveInclude frame.file quote spec with
    | none => exact .inl idle
    | some target =>
      simp only [Walk.enter]
      by_cases free : frame.active = some false ∨ walk.once target = some true
      · rw [if_pos free]
        exact .inl idle
      · rw [if_neg free]
        by_cases open_ : target ∈ walk.scanning
        · rw [if_pos open_]
          exact .inl ⟨rfl, rfl, rfl, rfl, .refl _ _ _⟩
        · rw [if_neg open_]
          exact .inr ⟨quote, spec, l, target, rfl, off, found, fun closed => free (.inr closed), open_, rfl⟩

theorem Walk.run_of_running {skips : Bool} {after : Walk} (runs : walk.next project skips = .running after) :
    walk.run project skips = after.run project skips := by
  rw [Walk.run]
  split
  · rename_i finished
    rw [runs] at finished
    cases finished
  · rename_i running
    rw [runs] at running
    cases running
    rfl

/-- A visit that changes nothing is over. -/
structure Returned (project : Project) (line cost : Nat) (file : Text) (below : List Frame) (walk after : Walk) :
    Prop where
  run : walk.run project false = after.run project false
  known : after.toKnown = walk.toKnown
  stack : after.stack = below
  scanning : after.scanning = walk.scanning.erase file
  budget : walk.budget ≤ after.budget + cost
  timeline : Repeats walk.toKnown line walk.timeline after.timeline

theorem Walk.next_event (project : Project) (skips : Bool) (walk : Walk) {frame : Frame} {below : List Frame}
    (stack : walk.stack = frame :: below) (events : frame.events = event :: rest) (left : 0 < walk.budget) :
    walk.next project skips =
      .running (({ walk with stack := below, budget := walk.budget - 1 } : Walk).handle project skips
        { frame with events := rest } event) := by
  rw [Walk.next, stack]
  simp only [events]
  rw [if_neg (Nat.ne_of_gt left)]

/-- Whatever changes nothing may come before. -/
theorem Returned.behind {mid after : Walk} {cost : Nat} {below : List Frame} (first : Nat)
    (runs : walk.run project false = mid.run project false) (known : mid.toKnown = walk.toKnown)
    (scanning : mid.scanning = walk.scanning) (budget : walk.budget ≤ mid.budget + first)
    (timeline : Repeats walk.toKnown line walk.timeline mid.timeline)
    (returned : Returned project line cost file below mid after) :
    Returned project line (cost + first) file below walk after where
  run := runs.trans returned.run
  known := returned.known.trans known
  stack := returned.stack
  scanning := returned.scanning.trans (by rw [scanning])
  budget := by
    have rest := returned.budget
    omega
  timeline := timeline.trans (known ▸ returned.timeline)

/-- A visit that changes nothing can be made again, while the files it did not enter are open. -/
theorem reenter (quiet : Quiet project known cuts file inherited events active branches) (line : Nat) :
    ∃ cost, ∀ (walk : Walk) (below : List Frame) (start firstCut : Nat), walk.toKnown = known →
      walk.stack = ⟨file, events, inherited, active, branches, some line, start, firstCut⟩ :: below →
      (∀ cut ∈ cuts, cut ∈ walk.scanning) → cost ≤ walk.budget →
      ∃ after, Returned project line cost file below walk after := by
  induction quiet with
  | @done file inherited active branches =>
    refine ⟨0, fun walk below start firstCut _ stack _ _ => ?_⟩
    have runs : walk.next project false =
        .running (({ walk with stack := below } : Walk).leave
          ⟨file, [], inherited, active, branches, some line, start, firstCut⟩) := by
      rw [Walk.next, stack]
    exact ⟨_, Walk.run_of_running runs, rfl, rfl, rfl, Nat.le_refl _, Repeats.refl _ _ _⟩
  | @branch file inherited active branches op expression guard l rest later ih =>
    obtain ⟨cost, ih⟩ := ih
    refine ⟨cost + 1, fun walk below start firstCut same stack cut enough => ?_⟩
    subst same
    let next := walk.branch inherited active branches op expression guard
    let stepped : Walk :=
      { walk with
        stack := ⟨file, rest, inherited, next.1, next.2, some line, start, firstCut⟩ :: below
        budget := walk.budget - 1 }
    have runs : walk.run project false = stepped.run project false :=
      Walk.run_of_running (Walk.next_event project false walk stack rfl (by omega))
    have one : walk.budget ≤ walk.budget - 1 + 1 := by omega
    obtain ⟨after, returned⟩ := ih stepped below start firstCut rfl rfl cut (Nat.le_sub_one_of_lt enough)
    exact ⟨after, returned.behind 1 runs rfl rfl one (.refl _ _ _)⟩
  | @event file inherited active branches event rest other still enters later entered ih =>
    obtain ⟨cost, ih⟩ := ih
    have nested : ∃ cost, ∀ quote spec at_ target, event = .inclusion quote spec at_ → active ≠ some false →
        project.resolveInclude file quote spec = some target → known.once target ≠ some true → target ∉ cuts →
        ∀ (walk : Walk) (below : List Frame) (start firstCut : Nat), walk.toKnown = known →
          walk.stack = .entering project target active (some line) start firstCut :: below →
          (∀ cut ∈ cuts, cut ∈ walk.scanning) → cost ≤ walk.budget →
          ∃ after, Returned project line cost target below walk after := by
      by_cases enter : ∃ quote spec at_ target, event = .inclusion quote spec at_ ∧ active ≠ some false ∧
          project.resolveInclude file quote spec = some target ∧ known.once target ≠ some true ∧ target ∉ cuts
      · obtain ⟨quote, spec, at_, target, rfl, on, found, free, outside⟩ := enter
        obtain ⟨cost, visit⟩ := entered quote spec at_ target rfl on found free outside
        refine ⟨cost, fun _ _ _ other same _ found' _ _ => ?_⟩
        cases same
        obtain rfl := Option.some.inj (found.symm.trans found')
        exact visit
      · exact ⟨0, fun quote spec at_ target same on found free outside =>
          absurd ⟨quote, spec, at_, target, same, on, found, free, outside⟩ enter⟩
    obtain ⟨deeper, nested⟩ := nested
    refine ⟨cost + (deeper + 1), fun walk below start firstCut same stack cut enough => ?_⟩
    have runs := Walk.run_of_running (Walk.next_event project false walk stack rfl (by omega))
    have one : walk.budget ≤ walk.budget - 1 + 1 := by omega
    rcases handle_still project { walk with stack := below, budget := walk.budget - 1 }
        ⟨file, rest, inherited, active, branches, some line, start, firstCut⟩ other
        (fun on => same ▸ still on) rfl with stays | ⟨quote, spec, at_, target, rfl, on, found, free, closed, enters⟩
    · obtain ⟨after, returned⟩ := ih _ below start firstCut (stays.known.trans same) stays.stack
        (by rwa [stays.scanning]) (by rw [stays.budget]; simp only; omega)
      have behind :=
        returned.behind (deeper + 1) runs stays.known stays.scanning (by rw [stays.budget]; simp only; omega)
        stays.timeline
      exact ⟨after, behind⟩
    · rw [enters] at runs
      let entered : Walk :=
        { walk with
          stack := .entering project target active (some line) walk.version walk.cuts.length ::
            ⟨file, rest, inherited, active, branches, some line, start, firstCut⟩ :: below
          scanning := insert target walk.scanning
          budget := walk.budget - 1 }
      obtain ⟨mid, visited⟩ :=
        nested quote spec at_ target rfl on found (same ▸ free) (fun inside => closed (cut target inside))
        entered _ _ _ same rfl (fun c inside => Finset.mem_insert_of_mem (cut c inside))
          (show _ ≤ walk.budget - 1 by omega)
      have scanning : mid.scanning = walk.scanning := visited.scanning.trans (Finset.erase_insert closed)
      have left : walk.budget - 1 ≤ mid.budget + deeper := visited.budget
      obtain ⟨after, returned⟩ := ih mid below start firstCut (visited.known.trans same) visited.stack
        (fun c inside => scanning ▸ cut c inside) (by omega)
      exact ⟨after, returned.behind _ (runs.trans visited.run) visited.known scanning (by omega) visited.timeline⟩

end Reentry

section Tracking

/-- A visit that has changed nothing so far changes nothing, if what it enters and the rest of it change nothing. -/
def Tracked (project : Project) (known : Known) (version : Nat) (cuts : List Text) :
    (bound latest : Nat) → (entered : List Text → Prop) → List Frame → Prop
  | _, _, _, [] => True
  | bound, latest, entered, frame :: below =>
    frame.firstCut ≤ bound ∧ frame.start ≤ latest ∧
      (frame.start = version → ∀ more, cuts.drop frame.firstCut ⊆ more → entered more →
        Quiet project known more frame.file frame.inherited frame.events frame.active frame.branches →
        QuietVisit project known more frame.file frame.inherited) ∧
      Tracked project known version cuts frame.firstCut frame.start
        (fun more => QuietVisit project known more frame.file frame.inherited) below

variable {after : Walk} {frame frame' : Frame} {below stack : List Frame} {version bound latest : Nat}
  {entered : List Text → Prop}

theorem Tracked.recut (tracked : Tracked project known version cuts bound latest entered stack)
    (grow : ∀ count ≤ bound, cuts.drop count ⊆ more.drop count) :
    Tracked project known version more bound latest entered stack := by
  induction stack generalizing bound latest entered with
  | nil => trivial
  | cons frame below ih =>
    obtain ⟨inside, before, quiet, later⟩ := tracked
    refine ⟨inside, before, fun same all covers => quiet same all ?_,
      ih later fun count le => grow count (Nat.le_trans le inside)⟩
    exact fun cut member => covers (grow frame.firstCut inside member)

/-- Behind a change no visit counts as one that changed nothing. -/
theorem Tracked.changed {known' : Known} {version' : Nat} {entered' : List Text → Prop}
    (tracked : Tracked project known version cuts bound latest entered stack) (before : latest < version') :
    Tracked project known' version' cuts bound latest entered' stack := by
  induction stack generalizing bound latest entered entered' with
  | nil => trivial
  | cons frame below ih =>
    obtain ⟨inside, started, -, later⟩ := tracked
    have earlier : frame.start < version' := Nat.lt_of_le_of_lt started before
    exact ⟨inside, started, fun same => absurd same (Nat.ne_of_lt earlier), ih later earlier⟩

/-- What a walk that skips visits keeps. -/
structure Kept (project : Project) (walk : Walk) : Prop where
  stack : Tracked project walk.toKnown walk.version walk.cuts walk.cuts.length walk.version (fun _ => True) walk.stack
  stops : ∀ file seen, walk.visits file = some seen → seen.stop ≤ walk.version
  quiet : ∀ file seen, walk.visits file = some seen → seen.start = seen.stop → seen.stop = walk.version →
    QuietVisit project walk.toKnown seen.cuts file seen.inherited

/-- Two frames are about one visit. -/
structure Frame.SameVisit (frame frame' : Frame) : Prop where
  file : frame'.file = frame.file
  inherited : frame'.inherited = frame.inherited
  start : frame'.start = frame.start
  firstCut : frame'.firstCut = frame.firstCut

theorem subset_drop_append (count : Nat) : cuts.drop count ⊆ (cuts ++ more).drop count := by
  rw [drop_append]
  exact subset_append_left _ _

/-- An event that changes nothing. -/
theorem Kept.advance (kept : Kept project walk) (here : walk.stack = frame :: below)
    (there : after.stack = frame' :: below)
    (same : frame.SameVisit frame') (known : after.toKnown = walk.toKnown) (version : after.version = walk.version)
    (visits : after.visits = walk.visits) (cuts : after.cuts = walk.cuts ++ more) (back : ∀ all, more ⊆ all →
      Quiet project walk.toKnown all frame.file frame.inherited frame'.events frame'.active frame'.branches →
      Quiet project walk.toKnown all frame.file frame.inherited frame.events frame.active frame.branches) :
    Kept project after := by
  have tracked := kept.stack
  rw [here] at tracked
  obtain ⟨inside, before, quiet, later⟩ := tracked
  refine ⟨?_, ?_, ?_⟩
  · rw [known, version, cuts, there]
    refine ⟨?_, same.start ▸ before, fun start all covers _ rest => ?_, ?_⟩
    · rw [same.firstCut, length_append]
      omega
    · rw [same.file, same.inherited] at rest ⊢
      rw [same.firstCut, drop_append_of_le_length inside] at covers
      have parts := append_subset.mp covers
      exact quiet (same.start ▸ start) all parts.1 trivial (back all parts.2 rest)
    · rw [same.firstCut, same.start, same.file, same.inherited]
      exact later.recut fun count _ => subset_drop_append count
  · rw [visits, version]
    exact kept.stops
  · rw [visits, version, known]
    exact kept.quiet

/-- An event that changes something. -/
theorem Kept.changed (kept : Kept project walk) (here : walk.stack = frame :: below)
    (there : after.stack = frame' :: below)
    (same : frame.SameVisit frame') (version : walk.version < after.version) (visits : after.visits = walk.visits)
    (cuts : after.cuts = walk.cuts) : Kept project after := by
  have tracked := kept.stack
  rw [here] at tracked
  obtain ⟨inside, before, -, later⟩ := tracked
  have earlier : frame.start < after.version := Nat.lt_of_le_of_lt before version
  refine ⟨?_, ?_, ?_⟩
  · rw [cuts, there]
    refine ⟨same.firstCut ▸ inside, same.start ▸ Nat.le_of_lt earlier, fun start => ?_, ?_⟩
    · exact absurd (same.start ▸ start) (Nat.ne_of_lt earlier)
    · rw [same.firstCut, same.start]
      exact later.changed earlier
  · intro file seen found
    exact Nat.le_trans (kept.stops file seen (visits ▸ found)) (Nat.le_of_lt version)
  · intro file seen found _ stop
    have old := kept.stops file seen (visits ▸ found)
    omega

/-- An event that enters a file. -/
theorem Kept.enter {includeLine : Option Nat} (kept : Kept project walk) (here : walk.stack = frame :: below)
    (there : after.stack = .entering project target active includeLine walk.version walk.cuts.length :: frame' :: below)
    (same : frame.SameVisit frame') (known : after.toKnown = walk.toKnown) (version : after.version = walk.version)
    (visits : after.visits = walk.visits) (cuts : after.cuts = walk.cuts)
    (back : ∀ all, QuietVisit project walk.toKnown all target active →
      Quiet project walk.toKnown all frame.file frame.inherited frame'.events frame'.active frame'.branches →
      Quiet project walk.toKnown all frame.file frame.inherited frame.events frame.active frame.branches) :
    Kept project after := by
  have tracked := kept.stack
  rw [here] at tracked
  obtain ⟨inside, before, quiet, later⟩ := tracked
  refine ⟨?_, ?_, ?_⟩
  · rw [known, version, cuts, there]
    refine ⟨Nat.le_refl _, Nat.le_refl _, fun _ _ _ _ visit => visit, same.firstCut ▸ inside, same.start ▸ before, ?_,
      ?_⟩
    · intro start all covers entered rest
      rw [same.file, same.inherited] at rest ⊢
      exact quiet (same.start ▸ start) all (same.firstCut ▸ covers) trivial (back all entered rest)
    · rw [same.firstCut, same.start, same.file, same.inherited]
      exact later
  · rw [visits, version]
    exact kept.stops
  · rw [visits, version, known]
    exact kept.quiet

theorem mem_own {cut : Text} {count : Nat} : cut ∈ (cuts.drop count).eraseDups ↔ cut ∈ cuts.drop count :=
  mem_eraseDups

/-- The end of a visit. -/
theorem Kept.leave (kept : Kept project walk) (here : walk.stack = frame :: below) (ended : frame.events = []) :
    Kept project (({ walk with stack := below } : Walk).leave frame) := by
  have tracked := kept.stack
  rw [here] at tracked
  obtain ⟨inside, before, quiet, later⟩ := tracked
  have whole (start : frame.start = walk.version) (all : List Text) (covers : walk.cuts.drop frame.firstCut ⊆ all) :
      QuietVisit project walk.toKnown all frame.file frame.inherited :=
    quiet start all covers trivial (ended ▸ .done)
  have length : (walk.cuts.take frame.firstCut).length = frame.firstCut := length_take_of_le inside
  have grow (count : Nat) (le : count ≤ frame.firstCut) :
      walk.cuts.drop count ⊆
        (walk.cuts.take frame.firstCut ++ (walk.cuts.drop frame.firstCut).eraseDups).drop count := by
    intro cut member
    rw [drop_append_of_le_length (le.trans_eq length.symm)]
    rw [← take_append_drop frame.firstCut walk.cuts, drop_append_of_le_length (le.trans_eq length.symm)]
      at member
    rcases mem_append.mp member with front | back
    · exact mem_append_left _ front
    · exact mem_append_right _ (mem_own.mpr back)
  refine ⟨?_, ?_, ?_⟩
  · simp only [Walk.leave]
    cases below with
    | nil => trivial
    | cons parent below =>
      obtain ⟨inside', before', quiet', later'⟩ := later
      refine ⟨?_, Nat.le_trans before' before, fun start all covers _ rest => ?_, ?_⟩
      · rw [length_append, length]
        omega
      · have covered : walk.cuts.drop parent.firstCut ⊆ all := fun cut member => covers (grow _ inside' member)
        have own : walk.cuts.drop frame.firstCut ⊆ all := by
          refine List.Subset.trans ?_ covered
          exact (drop_suffix_drop_left walk.cuts inside').subset
        refine quiet' start all covered (whole ?_ all own) rest
        omega
      · exact later'.recut fun count le => grow count (Nat.le_trans le inside')
  · intro file seen found
    simp only [Walk.leave] at found ⊢
    by_cases this : file = frame.file
    · rw [this, Function.update_self] at found
      cases found
      exact Nat.le_refl _
    · rw [Function.update_of_ne this] at found
      exact kept.stops file seen found
  · intro file seen found start stop
    simp only [Walk.leave] at found stop ⊢
    by_cases this : file = frame.file
    · rw [this, Function.update_self] at found
      cases found
      rw [this]
      exact whole start _ fun cut member => mem_own.mpr member
    · rw [Function.update_of_ne this] at found
      exact kept.quiet file seen found start stop

end Tracking

section Agreement

variable {other after : Walk} {frame frame' : Frame} {below : List Frame} {floor : Nat}

/-- What a frame shows to the walk, without what is kept for skipping. -/
def Frame.shape (frame : Frame) : Frame := { frame with start := 0, firstCut := 0 }

theorem Frame.of_shape {A : Type} (same : frame'.shape = frame.shape) (read : Frame → A)
    (blind : ∀ frame, read frame.shape = read frame) : read frame' = read frame := by
  rw [← blind, same, blind]

/-- Two walks are at the same place and answer alike so far. -/
structure Alike (walk other : Walk) : Prop where
  known : other.toKnown = walk.toKnown
  stack : other.stack.map Frame.shape = walk.stack.map Frame.shape
  scanning : other.scanning = walk.scanning
  cutoff : other.timeline.cutoff = none
  lookup : ∀ name line, other.timeline.lookup name line = walk.timeline.lookup name line

/-- Both walks record a definition alike. -/
theorem Alike.record {defining macroNow functionLike : Bool} {value : Text} (alike : Alike walk other) :
    Alike (walk.record name line active defining macroNow functionLike value)
      (other.record name line active defining macroNow functionLike value) := by
  have recorded (w : Walk) : (w.record name line active defining macroNow functionLike value).toKnown =
      { definitions :=
        Function.update w.toKnown.definitions name (w.toKnown.redefined name active defining macroNow value)
        macroNames := if functionLike then insert name w.toKnown.macroNames else w.toKnown.macroNames
        once := w.toKnown.once } := rfl
  have known : (other.record name line active defining macroNow functionLike value).toKnown =
      (walk.record name line active defining macroNow functionLike value).toKnown := by
    rw [recorded, recorded, alike.known]
  refine ⟨known, alike.stack, alike.scanning, Walk.record_cutoff.trans alike.cutoff, fun queried place => ?_⟩
  have before : latest (other.timeline.events queried) place = latest (walk.timeline.events queried) place :=
    alike.lookup queried place
  change latest _ place = latest _ place
  rw [Walk.record_events, Walk.record_events, known, alike.known]
  split
  · rw [latest_concat, latest_concat, before]
  · rw [append_nil, append_nil, before]

theorem Alike.setOnce (alike : Alike walk other) : Alike (walk.setOnce file active) (other.setOnce file active) where
  known := by
    have recorded (w : Walk) : (w.setOnce file active).toKnown =
        { w.toKnown with once := Function.update w.toKnown.once file (.or (w.toKnown.once file) active) } := rfl
    rw [recorded, recorded, alike.known]
  stack := alike.stack
  scanning := alike.scanning
  cutoff := alike.cutoff
  lookup := alike.lookup

theorem Alike.push (alike : Alike walk other) (same : frame'.shape = frame.shape) :
    Alike { walk with stack := frame :: walk.stack } { other with stack := frame' :: other.stack } :=
  ⟨alike.known, by simp only [map_cons, same, alike.stack], alike.scanning, alike.cutoff, alike.lookup⟩

/-- A file is entered by both walks, or only by the one that skips nothing. -/
theorem Alike.enter (project : Project) (alike : Alike walk other) (target : Text) (active : Truth)
    (includeLine : Option Nat) :
    Alike (walk.enter project true target active includeLine) (other.enter project false target active includeLine) ∨
      ∃ seen, walk.repeated target active = some seen ∧ target ∉ walk.scanning ∧
        walk.enter project true target active includeLine = { walk with cuts := walk.cuts ++ seen.cuts } ∧
        other.enter project false target active includeLine =
          { other with
            scanning := insert target other.scanning
            stack := .entering project target active includeLine other.version other.cuts.length :: other.stack } := by
  simp only [Walk.enter, alike.known, alike.scanning, Bool.false_eq_true, if_false, if_true]
  by_cases free : active = some false ∨ walk.once target = some true
  · rw [if_pos free, if_pos free]
    exact .inl alike
  rw [if_neg free, if_neg free]
  by_cases open_ : target ∈ walk.scanning
  · rw [if_pos open_, if_pos open_]
    exact .inl ⟨rfl, alike.stack, rfl, alike.cutoff, alike.lookup⟩
  rw [if_neg open_, if_neg open_]
  cases seen : walk.repeated target active with
  | none =>
    refine .inl ⟨rfl, ?_, rfl, alike.cutoff, alike.lookup⟩
    exact congrArg (cons _) alike.stack
  | some visit => exact .inr ⟨visit, rfl, open_, rfl, rfl⟩

/-- An event takes place in both walks. Only the one that skips nothing may enter a file. -/
theorem Alike.handle (alike : Alike walk other) (same : frame'.shape = frame.shape) (event : FileEvent) :
    Alike (walk.handle project true frame event) (other.handle project false frame' event) ∨
      ∃ quote spec at_ target seen, event = .inclusion quote spec at_ ∧ frame.active ≠ some false ∧
        project.resolveInclude frame.file quote spec = some target ∧
        walk.repeated target frame.active = some seen ∧ target ∉ walk.scanning ∧
        walk.handle project true frame event =
          { walk with stack := frame :: walk.stack, cuts := walk.cuts ++ seen.cuts } ∧
        other.handle project false frame' event =
          { other with
            scanning := insert target other.scanning
            stack :=
              .entering project target frame.active (some (frame.at_ at_)) other.version other.cuts.length ::
                frame' :: other.stack } := by
  have file : frame'.file = frame.file := Frame.of_shape same Frame.file fun _ => rfl
  have activity : frame'.active = frame.active := Frame.of_shape same Frame.active fun _ => rfl
  have place (l : Nat) : frame'.at_ l = frame.at_ l := Frame.of_shape same (·.at_ l) fun _ => rfl
  cases event with
  | branch op expression guard l =>
    let read (f : Frame) : Frame :=
      let next := walk.branch f.inherited f.active f.branches op expression guard
      .shape { f with active := next.1, branches := next.2 }
    refine .inl ⟨alike.known, ?_, alike.scanning, alike.cutoff, alike.lookup⟩
    simp only [Walk.handle, map_cons, alike.stack, alike.known]
    exact congrArg (fun f => f :: _) (Frame.of_shape same read fun _ => rfl)
  | once l =>
    left
    simp only [Walk.handle, activity, file]
    split
    · exact alike.push same
    · exact (alike.push same).setOnce
  | define name l functionLike value wrapsItself =>
    left
    simp only [Walk.handle, activity, place]
    split
    · exact alike.push same
    · exact (alike.push same).record
  | undef name l =>
    left
    simp only [Walk.handle, activity, place]
    split
    · exact alike.push same
    · exact (alike.push same).record
  | inclusion quote spec l =>
    simp only [Walk.handle, activity, file, place]
    by_cases off : frame.active = some false
    · rw [if_pos off, if_pos off]
      exact .inl (alike.push same)
    rw [if_neg off, if_neg off]
    cases found : project.resolveInclude frame.file quote spec with
    | none => exact .inl (alike.push same)
    | some target =>
      rcases (alike.push same).enter project target frame.active (some (frame.at_ l))
        with both | ⟨seen, old, closed, skips, enters⟩
      · exact .inl both
      · exact .inr ⟨quote, spec, l, target, seen, rfl, off, found, old, closed, skips, enters⟩

end Agreement

section Steps

variable {after other : Walk} {frame frame' : Frame} {below stack : List Frame} {floor budget : Nat}

/-- No event that is still to come is about an earlier line of the root. -/
inductive Lined (floor : Nat) : List Frame → Prop
  | done : Lined floor []
  | root {frame : Frame} (first : frame.includeLine = none)
      (sorted : frame.events.Pairwise fun event later => event.line ≤ later.line)
      (behind : ∀ event ∈ frame.events, floor ≤ event.line) : Lined floor [frame]
  | nested {frame : Frame} {below : List Frame} (led : frame.includeLine = some floor) (later : Lined floor below) :
      Lined floor (frame :: below)

theorem Lined.take (lined : Lined floor (frame :: below)) (frame' : Frame) (events : frame.events = event :: rest)
    (same : frame'.events = rest) (led : frame'.includeLine = frame.includeLine) :
    floor ≤ frame.at_ event.line ∧ Lined (frame.at_ event.line) (frame' :: below) := by
  cases lined with
  | root first sorted behind =>
    rw [events] at sorted behind
    rw [Frame.at_, first, Option.getD_none]
    have parts := pairwise_cons.mp sorted
    exact ⟨behind event (mem_cons_self ..), .root (led.trans first) (same ▸ parts.2) (same ▸ parts.1)⟩
  | nested included later =>
    rw [Frame.at_, included, Option.getD_some]
    exact ⟨Nat.le_refl _, .nested (led.trans included) later⟩

/-- A recorded definition is the last change of its name. -/
theorem Settled.record (walk : Walk) {place : Nat} {defining macroNow functionLike : Bool} {value : Text}
    (settled : Settled walk.toKnown place walk.timeline) :
    Settled (walk.record name place active defining macroNow functionLike value).toKnown place
      (walk.record name place active defining macroNow functionLike value).timeline where
  last queried member := by
    rw [Walk.record_events]
    by_cases here : queried = name
    · subst here
      rw [if_pos ⟨rfl, member⟩, getLast?_concat]
      refine ⟨place, ?_⟩
      simp only [Walk.record, Function.update_self]
    · rw [if_neg fun both => here both.1, append_nil]
      simp only [Walk.record, Function.update_of_ne here]
      refine settled.last queried ?_
      simp only [Walk.record] at member
      split at member
      · exact (Finset.mem_insert.mp member).resolve_left here
      · exact member
  before queried change member := by
    rw [Walk.record_events] at member
    rcases mem_append.mp member with old | new
    · exact settled.before queried change old
    · split at new
      · rw [mem_singleton.mp new]
      · cases new

/-- What a walk that skips visits keeps, at a line of the root. -/
structure Orderly (project : Project) (walk : Walk) (floor : Nat) : Prop where
  kept : Kept project walk
  lined : Lined floor walk.stack
  settled : Settled walk.toKnown floor walk.timeline

theorem Walk.repeated_spec {seen : Visit} (found : walk.repeated file inherited = some seen) :
    walk.visits file = some seen ∧ seen.inherited = inherited ∧ seen.start = seen.stop ∧ seen.stop = walk.version ∧
      ∀ cut ∈ seen.cuts, cut ∈ walk.scanning := by
  obtain ⟨visited, same⟩ := Option.filter_eq_some_iff.mp found
  exact ⟨visited, of_decide_eq_true same⟩

/-- An event that enters nothing. -/
theorem Quiet.behind {all : List Text} (events : frame.events = event :: rest)
    (plain : ∀ op expression guard line, event ≠ .branch op expression guard line)
    (stays : ∀ quote spec line, event ≠ .inclusion quote spec line)
    (still : frame.active ≠ some false → event.Still known frame.file frame.active)
    (later : Quiet project known all frame.file frame.inherited rest frame.active frame.branches) :
    Quiet project known all frame.file frame.inherited frame.events frame.active frame.branches :=
  events ▸ .event plain still (fun quote spec line _ same => absurd same (stays quote spec line)) later

/-- An event that can only enter a file. -/
theorem Quiet.including {all : List Text} {quote : Char} {spec : Text} {l : Nat}
    (events : frame.events = .inclusion quote spec l :: rest)
    (visited : ∀ target, frame.active ≠ some false → project.resolveInclude frame.file quote spec = some target →
      known.once target ≠ some true → target ∉ all → QuietVisit project known all target frame.active)
    (later : Quiet project known all frame.file frame.inherited rest frame.active frame.branches) :
    Quiet project known all frame.file frame.inherited frame.events frame.active frame.branches :=
  events ▸ .event nofun (fun _ => trivial)
    (fun _ _ _ target same on found => by
      cases same
      exact visited target on found)
    later

/-- An event that enters nothing changes nothing, or shows that it changes something. -/
theorem Kept.observe (kept : Kept project walk) (here : walk.stack = frame :: below)
    (events : frame.events = event :: rest)
    (plain : ∀ op expression guard line, event ≠ .branch op expression guard line)
    (stays : ∀ quote spec line, event ≠ .inclusion quote spec line)
    (there : after.stack = { frame with events := rest } :: below)
    (visits : after.visits = walk.visits) (cuts : after.cuts = walk.cuts) (grows : walk.version ≤ after.version)
    (still : after.version = walk.version →
      (frame.active ≠ some false → event.Still walk.toKnown frame.file frame.active) ∧ after.toKnown = walk.toKnown) :
    Kept project after := by
  rcases Nat.eq_or_lt_of_le grows with version | version
  · obtain ⟨still, known⟩ := still version.symm
    refine kept.advance here there ⟨rfl, rfl, rfl, rfl⟩ known version.symm visits
      (cuts.trans (append_nil _).symm) fun all _ quiet => ?_
    exact .behind events plain stays still quiet
  · exact kept.changed here there ⟨rfl, rfl, rfl, rfl⟩ version visits cuts

/-- An inclusion that finds its file keeps what a skipping walk keeps. -/
theorem Kept.inclusion {quote : Char} {spec : Text} {l : Nat} (kept : Kept project walk)
    (here : walk.stack = frame :: below)
    (events : frame.events = .inclusion quote spec l :: rest) (on : frame.active ≠ some false)
    (found : project.resolveInclude frame.file quote spec = some target) : Kept project
      (({ walk with stack := { frame with events := rest } :: below, budget } : Walk).enter project true target
        frame.active
        (some (frame.at_ l))) := by
  have quiet {all : List Text}
      (visited : walk.once target ≠ some true → target ∉ all →
        QuietVisit project walk.toKnown all target frame.active) :=
    Quiet.including events fun other _ resolved => by
      obtain rfl := Option.some.inj (found.symm.trans resolved)
      exact visited
  have unchanged : walk.cuts = walk.cuts ++ [] := (append_nil _).symm
  simp only [Walk.enter]
  by_cases free : frame.active = some false ∨ walk.once target = some true
  · rw [if_pos free]
    have once := free.resolve_left on
    exact kept.advance here rfl ⟨rfl, rfl, rfl, rfl⟩ rfl rfl rfl unchanged fun all _ later => quiet (absurd once) later
  rw [if_neg free]
  by_cases open_ : target ∈ walk.scanning
  · rw [if_pos open_]
    refine kept.advance here rfl ⟨rfl, rfl, rfl, rfl⟩ rfl rfl rfl rfl fun all covers later => ?_
    exact quiet (fun _ outside => absurd (covers (mem_singleton_self target)) outside) later
  rw [if_neg open_, if_pos trivial]
  split
  · rename_i seen old
    obtain ⟨visited, same, unchanged, still, -⟩ := Walk.repeated_spec old
    refine kept.advance here rfl ⟨rfl, rfl, rfl, rfl⟩ rfl rfl rfl rfl fun all covers later => ?_
    exact quiet (fun _ _ => (same ▸ kept.quiet target seen visited unchanged still).mono covers) later
  · refine kept.enter here rfl ⟨rfl, rfl, rfl, rfl⟩ rfl rfl rfl rfl fun all visited later => ?_
    exact quiet (fun _ _ => visited) later

/-- Every event keeps what a skipping walk keeps. -/
theorem Kept.handle (kept : Kept project walk) (here : walk.stack = frame :: below)
    (events : frame.events = event :: rest) : Kept project
      (({ walk with stack := below, budget } : Walk).handle project true { frame with events := rest } event) := by
  have unchanged : walk.cuts = walk.cuts ++ [] := (append_nil _).symm
  let top : Walk := { walk with stack := { frame with events := rest } :: below, budget }
  cases event with
  | branch op expression guard l =>
    exact kept.advance here rfl ⟨rfl, rfl, rfl, rfl⟩ rfl rfl rfl unchanged fun all _ quiet => events ▸ .branch quiet
  | once l =>
    simp only [Walk.handle]
    split
    · exact kept.observe here events (by simp) (by simp) rfl rfl rfl (Nat.le_refl _) fun _ => ⟨absurd ‹_›, rfl⟩
    · refine kept.observe here events (by simp) (by simp) rfl rfl rfl (Walk.setOnce_version_le top) fun version => ?_
      have same := Walk.still_of_setOnce top version
      exact ⟨fun _ => same, Walk.setOnce_known top same⟩
  | define name l functionLike value wrapsItself =>
    simp only [Walk.handle]
    split
    · exact kept.observe here events (by simp) (by simp) rfl rfl rfl (Nat.le_refl _) fun _ => ⟨absurd ‹_›, rfl⟩
    · refine kept.observe here events (by simp) (by simp) rfl rfl rfl (Walk.record_version_le top) fun version => ?_
      have same := Walk.still_of_record top version
      exact ⟨fun _ => same, Walk.record_known top _ same.1 same.2⟩
  | undef name l =>
    simp only [Walk.handle]
    split
    · exact kept.observe here events (by simp) (by simp) rfl rfl rfl (Nat.le_refl _) fun _ => ⟨absurd ‹_›, rfl⟩
    · refine kept.observe here events (by simp) (by simp) rfl rfl rfl (Walk.record_version_le top) fun version => ?_
      have same := Walk.still_of_record top version
      exact ⟨fun _ => same.1, Walk.record_known top _ same.1 same.2⟩
  | inclusion quote spec l =>
    simp only [Walk.handle]
    split
    · refine kept.advance here rfl ⟨rfl, rfl, rfl, rfl⟩ rfl rfl rfl unchanged fun all _ later => ?_
      exact .including events (fun _ on => absurd ‹_› on) later
    · split
      · exact kept.inclusion here events ‹_› ‹_›
      · rename_i missing
        refine kept.advance here rfl ⟨rfl, rfl, rfl, rfl⟩ rfl rfl rfl unchanged fun all _ later => ?_
        exact .including events (fun _ _ found => absurd (missing.symm.trans found) (by simp)) later

/-- An event leaves its frame on the stack, with at most the file that it enters over it. -/
theorem Walk.handle_stack_cases (project : Project) (walk : Walk) (frame : Frame) (event : FileEvent) :
    (∃ frame' : Frame, (walk.handle project true frame event).stack = frame' :: walk.stack ∧
      frame'.events = frame.events ∧
      frame'.includeLine = frame.includeLine) ∨
    ∃ target active start firstCut, (walk.handle project true frame event).stack =
      .entering project target active (some (frame.at_ event.line)) start firstCut :: frame :: walk.stack := by
  have stays (after : Walk) (same : after.stack = frame :: walk.stack) :
      ∃ frame' : Frame, after.stack = frame' :: walk.stack ∧ frame'.events = frame.events ∧
        frame'.includeLine = frame.includeLine :=
    ⟨frame, same, rfl, rfl⟩
  cases event with
  | branch => exact .inl ⟨_, rfl, rfl, rfl⟩
  | once | define | undef =>
    simp only [Walk.handle]
    split <;> exact .inl (stays _ rfl)
  | inclusion quote spec l =>
    simp only [Walk.handle]
    split
    · exact .inl (stays _ rfl)
    split
    · simp only [Walk.enter]
      split
      · exact .inl (stays _ rfl)
      split
      · exact .inl (stays _ rfl)
      split
      · exact .inl (stays _ rfl)
      · exact .inr ⟨_, _, _, _, rfl⟩
    · exact .inl (stays _ rfl)

/-- Handling an event keeps what is settled. -/
theorem Settled.handle (walk : Walk) (frame : Frame)
    (settled : Settled walk.toKnown (frame.at_ event.line) walk.timeline) :
    Settled (walk.handle project true frame event).toKnown (frame.at_ event.line)
    (walk.handle project true frame event).timeline := by
  let top : Walk := { walk with stack := frame :: walk.stack }
  cases event with
  | branch => exact settled
  | once =>
    simp only [Walk.handle]
    split
    · exact settled
    · exact ⟨settled.last, settled.before⟩
  | define | undef =>
    simp only [Walk.handle]
    split
    · exact settled
    · exact .record top settled
  | inclusion quote spec l =>
    simp only [Walk.handle]
    split
    · exact settled
    split
    · simp only [Walk.enter]
      split
      · exact settled
      split
      · exact settled
      split <;> exact settled
    · exact settled

/-- A walk that skips visits goes on as it should. -/
theorem Orderly.next (orderly : Orderly project walk floor) (runs : walk.next project true = .running after) :
    ∃ floor, Orderly project after floor := by
  unfold Walk.next at runs
  split at runs
  · cases runs
  · rename_i frame below here
    split at runs
    · rename_i ended
      cases runs
      refine ⟨floor, orderly.kept.leave here ended, ?_, orderly.settled⟩
      have lined := here ▸ orderly.lined
      cases lined with
      | root => exact .done
      | nested _ later => exact later
    · rename_i event rest events
      split at runs
      · cases runs
      · cases runs
        have lined := here ▸ orderly.lined
        obtain ⟨le, -⟩ := lined.take { frame with events := rest } events rfl rfl
        refine ⟨frame.at_ event.line, orderly.kept.handle here events, ?_, ?_⟩
        · rcases Walk.handle_stack_cases project { walk with stack := below, budget := walk.budget - 1 }
            { frame with events := rest } event
              with ⟨frame', stack, same, led⟩ | ⟨target, active, start, firstCut, stack⟩
          · rw [stack]
            exact (lined.take frame' events same led).2
          · rw [stack]
            exact .nested rfl (lined.take { frame with events := rest } events rfl rfl).2
        · exact .handle { walk with stack := below, budget := walk.budget - 1 }
            { frame with events := rest } (orderly.settled.later le)

end Steps

section Runs

variable {after other : Walk} {frame : Frame} {below : List Frame} {floor : Nat}

theorem Alike.cons (alike : Alike walk other) (here : walk.stack = frame :: below) :
    ∃ frame' below', other.stack = frame' :: below' ∧ frame'.shape = frame.shape ∧
      below'.map Frame.shape = below.map Frame.shape := by
  have shapes := alike.stack
  rw [here, map_cons] at shapes
  obtain ⟨frame', below', there, head, tail⟩ := map_eq_cons_iff.mp shapes
  exact ⟨frame', below', there, head, tail⟩

/-- What the walk that skips nothing does while the other one makes a step. -/
structure Follows (project : Project) (after other : Walk) (cost : Nat) (other' : Walk) : Prop where
  run : other.run project false = other'.run project false
  alike : Alike after other'
  budget : other.budget ≤ other'.budget + cost

/-- Where one walk skips a visit, the other one makes it, and comes back with the same answers. -/
theorem Orderly.follow (orderly : Orderly project walk floor) (runs : walk.next project true = .running after) :
    ∃ cost, ∀ other, Alike walk other → cost ≤ other.budget → ∃ other', Follows project after other cost other' := by
  unfold Walk.next at runs
  split at runs
  · cases runs
  rename_i frame below here
  split at runs
  · rename_i ended
    cases runs
    refine ⟨0, fun other alike _ => ?_⟩
    obtain ⟨frame', below', there, same, rest⟩ := alike.cons here
    have events : frame'.events = [] := (Frame.of_shape same Frame.events fun _ => rfl).trans ended
    have next : other.next project false = .running (({ other with stack := below' } : Walk).leave frame') := by
      rw [Walk.next, there]
      simp only [events]
    refine ⟨_, Walk.run_of_running next, ⟨alike.known, rest, ?_, alike.cutoff, alike.lookup⟩, Nat.le_refl _⟩
    simp only [Walk.leave, alike.scanning, Frame.of_shape same Frame.file fun _ => rfl]
  rename_i event later events
  split at runs
  · cases runs
  cases runs
  let taken : Walk := { walk with stack := below, budget := walk.budget - 1 }
  let front : Frame := { frame with events := later }
  have revisit : ∃ cost, ∀ quote spec at_ target seen, event = .inclusion quote spec at_ →
      project.resolveInclude frame.file quote spec = some target → walk.repeated target frame.active = some seen →
      ∀ (other : Walk) (below : List Frame) (start firstCut : Nat), other.toKnown = walk.toKnown →
        other.stack = .entering project target frame.active (some (frame.at_ at_)) start firstCut :: below →
        (∀ cut ∈ seen.cuts, cut ∈ other.scanning) → cost ≤ other.budget →
        ∃ after, Returned project (frame.at_ at_) cost target below other after := by
    by_cases skips : ∃ quote spec at_ target seen, event = .inclusion quote spec at_ ∧
        project.resolveInclude frame.file quote spec = some target ∧ walk.repeated target frame.active = some seen
    · obtain ⟨quote, spec, at_, target, seen, rfl, found, old⟩ := skips
      obtain ⟨visited, same, unchanged, still, -⟩ := Walk.repeated_spec old
      have quiet := orderly.kept.quiet target seen visited unchanged still
      rw [same] at quiet
      obtain ⟨cost, visit⟩ := reenter quiet (frame.at_ at_)
      refine ⟨cost, fun _ _ _ _ _ event found' old' => ?_⟩
      cases event
      obtain rfl := Option.some.inj (found.symm.trans found')
      obtain rfl := Option.some.inj (old.symm.trans old')
      exact visit
    · exact ⟨0, fun quote spec at_ target seen same found old =>
        absurd ⟨quote, spec, at_, target, seen, same, found, old⟩ skips⟩
  obtain ⟨cost, revisit⟩ := revisit
  refine ⟨cost + 1, fun other alike enough => ?_⟩
  obtain ⟨frame', below', there, same, rest⟩ := alike.cons here
  let taken' : Walk := { other with stack := below', budget := other.budget - 1 }
  let front' : Frame := { frame' with events := later }
  have mid : Alike taken taken' := ⟨alike.known, rest, alike.scanning, alike.cutoff, alike.lookup⟩
  have shape : front'.shape = front.shape :=
    Frame.of_shape same (fun f => Frame.shape { f with events := later }) fun _ => rfl
  have next : other.run project false = (taken'.handle project false front' event).run project false :=
    Walk.run_of_running (Walk.next_event project false other there
      ((Frame.of_shape same Frame.events fun _ => rfl).trans events) (by omega))
  have one : other.budget ≤ other.budget - 1 + 1 := by omega
  rcases mid.handle shape event with both | ⟨quote, spec, at_, target, seen, rfl, on, found, old, closed, skips, enters⟩
  · refine ⟨_, next, both, ?_⟩
    rw [Walk.handle_budget]
    exact Nat.le_trans one (Nat.add_le_add_left (Nat.le_add_left _ _) _)
  · rw [enters] at next
    have covered := (Walk.repeated_spec old).2.2.2.2
    let entered : Walk :=
      { other with
        scanning := insert target other.scanning
        stack := .entering project target frame.active (some (frame.at_ at_)) other.version other.cuts.length ::
          front' :: below'
        budget := other.budget - 1 }
    obtain ⟨back, returned⟩ := revisit quote spec at_ target seen rfl found old entered _ _ _ alike.known rfl
      (fun cut inside => Finset.mem_insert_of_mem (alike.scanning ▸ covered cut inside)) (Nat.le_sub_one_of_lt enough)
    have known : back.toKnown = walk.toKnown := returned.known.trans alike.known
    have scanning : back.scanning = walk.scanning := by
      rw [returned.scanning]
      exact (Finset.erase_insert (alike.scanning ▸ closed)).trans alike.scanning
    obtain ⟨le, -⟩ := (here ▸ orderly.lined).take front events rfl rfl
    have settled := orderly.settled.later le
    refine ⟨back, next.trans returned.run, ?_, ?_⟩
    · change Alike (taken.handle project true front _) back
      rw [skips]
      refine ⟨known, ?_, scanning, returned.timeline.1.trans alike.cutoff, fun name line => ?_⟩
      · rw [returned.stack, map_cons, map_cons, shape, rest]
      · exact (alike.known ▸ returned.timeline).lookup settled (alike.lookup name line)
    · have left : other.budget - 1 ≤ back.budget + cost := returned.budget
      omega

/-- Two timelines know everything, and the same. -/
structure SameAnswers (timeline other : Timeline) : Prop where
  cutoff : other.cutoff = none
  lookup : ∀ name line, other.lookup name line = timeline.lookup name line

theorem Walk.run_of_finished {skips : Bool} {timeline : Timeline}
    (finished : walk.next project skips = .finished timeline) : walk.run project skips = timeline := by
  rw [Walk.run]
  split
  · rename_i same
    rw [finished] at same
    cases same
    rfl
  · rename_i running
    rw [finished] at running
    cases running

/-- A walk that skips visits and does not run out of its budget answers as the walk that skips nothing does. -/
theorem Orderly.run (orderly : Orderly project walk floor) (finishes : (walk.run project true).cutoff = none) :
    ∃ enough, ∀ other, Alike walk other → enough ≤ other.budget →
      SameAnswers (walk.run project true) (other.run project false) := by
  induction walk using Walk.run.induct project true generalizing floor with
  | case1 walk timeline finished =>
    rw [Walk.run_of_finished finished] at finishes ⊢
    unfold Walk.next at finished
    split at finished
    · rename_i empty
      cases finished
      refine ⟨0, fun other alike _ => ?_⟩
      have shapes := alike.stack
      rw [empty, map_nil, map_eq_nil_iff] at shapes
      have ended : other.next project false = .finished other.timeline := by rw [Walk.next, shapes]
      rw [Walk.run_of_finished ended]
      exact ⟨alike.cutoff, alike.lookup⟩
    · split at finished
      · cases finished
      · split at finished
        · cases finished
          cases finishes
        · cases finished
  | case2 walk after runs ih =>
    rw [Walk.run_of_running runs] at finishes ⊢
    obtain ⟨floor', later⟩ := orderly.next runs
    obtain ⟨enough, agrees⟩ := ih later finishes
    obtain ⟨cost, follow⟩ := orderly.follow runs
    refine ⟨enough + cost, fun other alike left => ?_⟩
    obtain ⟨other', follows⟩ := follow other alike (Nat.le_trans (Nat.le_add_left _ _) left)
    rw [follows.run]
    have budget := follows.budget
    exact agrees other' follows.alike (by omega)

end Runs

section Budgets

variable {skips : Bool}

/-- A walk with some more budget. -/
def Walk.enriched (walk : Walk) (more : Nat) : Walk := { walk with budget := walk.budget + more }

/-- A file is entered alike with a larger budget. -/
theorem Walk.enter_enriched (walk : Walk) (target : Text) (active : Truth) (includeLine : Option Nat) (more : Nat) :
    (walk.enriched more).enter project skips target active includeLine =
      (walk.enter project skips target active includeLine).enriched more := by
  by_cases free : active = some false ∨ walk.once target = some true
  · exact (if_pos free).trans (congrArg (Walk.enriched · more) (if_pos free)).symm
  refine (if_neg free).trans (Eq.trans ?_ (congrArg (Walk.enriched · more) (if_neg free)).symm)
  by_cases open_ : target ∈ walk.scanning
  · rw [if_pos open_]
    exact if_pos open_
  refine (if_neg open_).trans (Eq.trans ?_ (congrArg (Walk.enriched · more) (if_neg open_)).symm)
  rcases skipped : (if skips then walk.repeated target active else none) with _ | visit
  · rw [show (if skips then (walk.enriched more).repeated target active else none) = none from skipped]
    rfl
  · rw [show (if skips then (walk.enriched more).repeated target active else none) = some visit from skipped]
    rfl

theorem Walk.handle_enriched (walk : Walk) (frame : Frame) (event : FileEvent) (more : Nat) :
    (walk.enriched more).handle project skips frame event = (walk.handle project skips frame event).enriched more := by
  cases event with
  | branch => rfl
  | once | define | undef =>
    simp only [Walk.handle]
    split <;> rfl
  | inclusion quote spec l =>
    simp only [Walk.handle]
    split
    · rfl
    split
    · exact Walk.enter_enriched { walk with stack := frame :: walk.stack } _ _ _ more
    · rfl

/-- A walk that does not run out of its budget does not depend on it. -/
theorem Walk.run_enriched (more : Nat) (finishes : (walk.run project skips).cutoff = none) :
    (walk.enriched more).run project skips = walk.run project skips := by
  induction walk using Walk.run.induct project skips with
  | case1 walk timeline finished =>
    rw [Walk.run_of_finished finished] at finishes ⊢
    refine Walk.run_of_finished ?_
    unfold Walk.next at finished
    split at finished
    · rename_i empty
      have empty' : (walk.enriched more).stack = [] := empty
      rw [Walk.next, empty']
      exact finished
    · split at finished
      · cases finished
      · split at finished
        · cases finished
          cases finishes
        · cases finished
  | case2 walk after runs ih =>
    rw [Walk.run_of_running runs] at finishes ⊢
    rw [← ih finishes]
    refine Walk.run_of_running ?_
    unfold Walk.next at runs
    split at runs
    · cases runs
    rename_i frame below here
    split at runs
    · rename_i ended
      cases runs
      have here' : (walk.enriched more).stack = frame :: below := here
      rw [Walk.next, here']
      simp only [ended]
      rfl
    · rename_i event rest events
      split at runs
      · cases runs
      · cases runs
        have left : 0 < walk.budget := Nat.pos_of_ne_zero ‹_›
        rw [Walk.next_event project skips (walk.enriched more) here events (Nat.add_pos_left left more),
          ← Walk.handle_enriched]
        refine congrArg (fun budget =>
          Walk.Outcome.running (Walk.handle project skips { walk with stack := below, budget } _ event)) ?_
        exact Nat.sub_add_comm left

theorem walkTranslationUnit_enriched {budget : Nat} {root : Text} (more : Nat)
    (finishes : (walkTranslationUnit project skips budget root).cutoff = none) :
    walkTranslationUnit project skips (budget + more) root = walkTranslationUnit project skips budget root := by
  refine Eq.trans ?_ (Walk.run_enriched more finishes)
  rw [← Walk.enter_enriched]
  rfl

end Budgets

section Roots

/-- The walk of a root as it begins. -/
theorem orderly_start (project : Project) (budget : Nat) (root : Text) :
    Orderly project (({ budget } : Walk).enter project true root (some true) none) 0 where
  kept := ⟨⟨Nat.le_refl _, Nat.le_refl _, fun _ _ _ _ visit => visit, trivial⟩, nofun, nofun⟩
  lined := .root rfl (summarize_sorted _ _) fun _ _ => Nat.zero_le _
  settled := ⟨fun _ member => absurd member (Finset.notMem_empty _), fun _ _ member => absurd member not_mem_nil⟩

theorem alike_start (project : Project) (budget more : Nat) (root : Text) :
    Alike (({ budget } : Walk).enter project true root (some true) none)
      (({ budget := more } : Walk).enter project false root (some true) none) :=
  ⟨rfl, rfl, rfl, rfl, fun _ _ => rfl⟩

end Roots

/-- Wherever the budget does not run out, the walk sees each macro as the walk that skips no visit sees it. -/
theorem skipped_visits_are_unseen (project : Project) (budget : Nat) (root : Text)
    (finishes : (walkTranslationUnit project true budget root).cutoff = none) :
    (∃ enough, ∀ more ≥ enough, (walkTranslationUnit project false more root).cutoff = none) ∧
      ∀ more, (walkTranslationUnit project false more root).cutoff = none → ∀ name line,
        (walkTranslationUnit project true budget root).visible name line =
          (walkTranslationUnit project false more root).visible name line := by
  obtain ⟨enough, agrees⟩ := (orderly_start project budget root).run finishes
  have answers (more : Nat) (le : enough ≤ more) :
      SameAnswers (walkTranslationUnit project true budget root) (walkTranslationUnit project false more root) :=
    agrees _ (alike_start project budget more root) le
  refine ⟨⟨enough, fun more le => (answers more le).cutoff⟩, fun more finishes' name line => ?_⟩
  have same := answers (more + enough) (Nat.le_add_left _ _)
  rw [walkTranslationUnit_enriched enough finishes'] at same
  rw [Timeline.visible, Timeline.visible, finishes, finishes', same.lookup]

/-- A header that a build flag opens is included three times. The last visit is skipped. -/
def thriceIncluded : Project where
  readFile file :=
    if file = "flag.h".toList then some "#ifdef FLAG\n#define TRACE(x) x\n#endif\n".toList
    else if file = "unit.c".toList then
      some "#include \"flag.h\"\n#include \"flag.h\"\n#include \"flag.h\"\n#define SWAP(a) a\n".toList
    else none
  resolveInclude _ _ spec := some spec
  wideWord _ := false

/-- A header that is included three times. -/
theorem skipped_visits_are_unseen_thrice :
    (walkTranslationUnit thriceIncluded true walkEventBudget "unit.c".toList).visible "SWAP".toList 5 = true ∧
      ∀ more, (walkTranslationUnit thriceIncluded false more "unit.c".toList).cutoff = none → ∀ name line,
        (walkTranslationUnit thriceIncluded true walkEventBudget "unit.c".toList).visible name line =
          (walkTranslationUnit thriceIncluded false more "unit.c".toList).visible name line :=
  ⟨by decide +kernel, (skipped_visits_are_unseen thriceIncluded walkEventBudget "unit.c".toList (by decide +kernel)).2⟩

end Codegraph.Macros
