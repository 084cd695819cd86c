import Codegraph.Sync.Gathering

/- This file shows which syncs give every reference that an earlier sync left over to the resolver. -/

namespace Codegraph.Sync
open Codegraph.Core Interruptible List
open Store (ReferenceSite)

section Refreshing
variable {call : SyncCall} {store : SyncStore} {notes : ChangedNotes} {row : RefRow}
  {replacement : Replacement} {all : List Replacement}

/-- Framework references are added to the listed files only, where they wait. -/
theorem frameworkRefs_added (paths : List String) :
    ∃ added : List RefRow, (∀ row ∈ added, row.filePath ∈ paths ∧ row.state = .pending) ∧
      paths.foldl (fun store path => insertUnresolvedRefs path (call.frameworkSites path) store) store =
        { store with refs := store.refs ++ added } := by
  induction paths generalizing store with
  | nil => exact ⟨[], by simp, by simp⟩
  | cons path rest ih =>
    obtain ⟨added, waiting, same⟩ := @ih (insertUnresolvedRefs path (call.frameworkSites path) store)
    refine ⟨(call.frameworkSites path).map (fun site => ⟨path, site, .pending⟩) ++ added, ?_, ?_⟩
    · intro row listed
      rcases mem_append.mp listed with fresh | later
      · obtain ⟨site, _, named⟩ := mem_map.mp fresh
        rw [← named]
        exact ⟨mem_cons_self, rfl⟩
      · exact ⟨mem_cons_of_mem path (waiting row later).1, (waiting row later).2⟩
    · rw [foldl_cons, same]
      simp [insertUnresolvedRefs]

/-- Persisting the frameworks keeps what was gathered. -/
theorem persistFrameworks_runs : Runs (Gathered call) (persistFrameworks call) fun _ => Gathered call := by
  apply Runs.read
  intro before gathered
  apply Runs.write
  · intro store notes ⟨sameStore, _⟩
    rw [sameStore]
    exact gathered.recovers
  · intro store notes ⟨sameStore, sameNotes⟩
    rw [sameStore, sameNotes]
    obtain ⟨added, waiting, same⟩ :=
      @frameworkRefs_added call before.store (before.notes.reindexed.filter before.store.indexed)
    rw [same]
    have reindexed (row : RefRow) (listed : row ∈ added) : row.filePath ∈ before.notes.reindexed :=
      (mem_filter.mp (waiting row listed).1).1
    constructor
    case recovers =>
      cases dirty : before.notes.dirty with
      | true => exact recovers_of_bare (gathered.bare dirty)
      | false =>
        refine gathered.recovers.mono rfl ?_ (fun _ present => present) fun _ listed => listed
        intro row stored due
        rcases mem_append.mp stored with old | fresh
        · exact ⟨row, old, due, rfl⟩
        · have impossible := reindexed row fresh
          rw [(gathered.quiet dirty).2.1] at impossible
          cases impossible
    case bare => exact gathered.bare
    case known =>
      intro row stored due indexed
      rcases mem_append.mp stored with old | fresh
      · exact gathered.known row old due indexed
      · exact .inl ⟨reindexed row fresh, (waiting row fresh).2⟩
    case quiet => exact gathered.quiet

/-- The replacement deletes the row. -/
def Replacement.removes (row : RefRow) : Replacement → Prop
  | .wholeFile path _ => row.filePath = path
  | .atSites _ replaced _ => row.site ∈ replaced

/-- The replacement writes the row anew. -/
def Replacement.inserts (row : RefRow) : Replacement → Prop
  | .wholeFile path fresh => row.filePath = path ∧ row.site ∈ fresh ∧ row.state = .pending
  | .atSites path _ fresh => row.filePath = path ∧ row.site ∈ fresh ∧ row.state = .pending

theorem replacement_rows (stored : row ∈ (replacement.apply store).refs) :
    replacement.inserts row ∨ row ∈ store.refs ∧ ¬ replacement.removes row := by
  cases replacement <;> rcases mem_append.mp stored with old | inserted
  case wholeFile.inl | atSites.inl =>
    obtain ⟨known, kept⟩ := mem_filter.mp old
    exact .inr ⟨known, by simpa [Replacement.removes] using kept⟩
  case wholeFile.inr | atSites.inr =>
    obtain ⟨site, listed, same⟩ := mem_map.mp inserted
    rw [← same]
    exact .inl ⟨rfl, listed, rfl⟩

theorem replacement_rest (replacement : Replacement) : (replacement.apply store).files = store.files ∧
    (replacement.apply store).markers = store.markers ∧
      (replacement.apply store).pendingThemes = store.pendingThemes := by
  cases replacement <;> exact ⟨rfl, rfl, rfl⟩

/-- A row after every replacement was written by one of them, or was there and none of them deletes it. -/
theorem replaced_rows (stored : row ∈ (all.foldl Replacement.apply store).refs) :
    (∃ replacement ∈ all, replacement.inserts row) ∨
      row ∈ store.refs ∧ ∀ replacement ∈ all, ¬ replacement.removes row := by
  induction all generalizing store with
  | nil => exact .inr ⟨stored, fun _ none => by cases none⟩
  | cons replacement rest ih =>
    rcases ih stored with ⟨later, listed, inserts⟩ | ⟨known, kept⟩
    · exact .inl ⟨later, mem_cons_of_mem replacement listed, inserts⟩
    · rcases replacement_rows known with inserts | ⟨old, survives⟩
      · exact .inl ⟨replacement, mem_cons_self, inserts⟩
      · exact .inr ⟨old, forall_mem_cons.mpr ⟨survives, kept⟩⟩

theorem replaced_rest (all : List Replacement) : (all.foldl Replacement.apply store).files = store.files ∧
    (all.foldl Replacement.apply store).markers = store.markers ∧
      (all.foldl Replacement.apply store).pendingThemes = store.pendingThemes := by
  induction all generalizing store with
  | nil => exact ⟨rfl, rfl, rfl⟩
  | cons replacement rest ih =>
    obtain ⟨files, markers, themes⟩ := @ih (replacement.apply store)
    obtain ⟨sameFiles, sameMarkers, sameThemes⟩ := @replacement_rest store replacement
    exact ⟨files.trans sameFiles, markers.trans sameMarkers, themes.trans sameThemes⟩

/-- A covered row of the file is deleted by the file's replacement. -/
theorem replacementFor_removes (covers : notes.Covers row) (refs : List ReferenceSite) :
    ∃ replacement, replacementFor call notes row.filePath refs = some replacement ∧ replacement.removes row := by
  by_cases whole : row.filePath ∈ notes.fallbacks ∨
      ((notes.sites.filter fun entry => entry.1 = row.filePath).map Prod.snd).any (fun site => site ∉ refs) = true
  · exact ⟨.wholeFile row.filePath refs, if_pos whole, rfl⟩
  · have noted : (row.filePath, row.site) ∈ notes.sites := covers.resolve_left fun fallback => whole (.inl fallback)
    have own : row.site ∈ (notes.sites.filter fun entry => entry.1 = row.filePath).map Prod.snd :=
      mem_map.mpr ⟨(row.filePath, row.site), mem_filter.mpr ⟨noted, decide_eq_true rfl⟩, rfl⟩
    have listed := mem_append_left
      (((call.receiverSites.filter fun entry => entry.1 = row.filePath && notes.dirty).map Prod.snd).filter
        fun site => site ∈ refs) own
    rw [replacementFor, if_neg whole]
    simp only
    rw [if_neg (by simpa using ne_nil_of_mem listed)]
    exact ⟨_, rfl, listed⟩

/-- What a replacement writes is resolved next. -/
theorem replacementFor_inserts {path : String} {refs : List ReferenceSite}
    (chosen : replacementFor call notes path refs = some replacement) (inserts : replacement.inserts row) :
    row.state = .pending ∧ (row.filePath ∈ replacement.files ∨ row.site ∈ replacement.sitesOf) := by
  unfold replacementFor at chosen
  simp only at chosen
  split at chosen
  next =>
    cases chosen
    exact ⟨inserts.2.2, .inl (mem_singleton.mpr inserts.1)⟩
  next =>
    split at chosen
    next => cases chosen
    next =>
      cases chosen
      exact ⟨inserts.2.2, .inr (of_decide_eq_true (mem_filter.mp inserts.2.1).2)⟩

/-- Without a mutation only the files that go whole are replaced. -/
theorem replacementFor_clean {path : String} {refs : List ReferenceSite}
    (clean : notes.dirty = false) (noSites : notes.sites = [])
    (chosen : replacementFor call notes path refs = some replacement) :
    path ∈ notes.fallbacks ∧ replacement = .wholeFile path refs := by
  by_cases whole : path ∈ notes.fallbacks
  · rw [replacementFor, if_pos (Or.inl whole)] at chosen
    exact ⟨whole, (Option.some.inj chosen).symm⟩
  · simp [replacementFor, whole, noSites, clean] at chosen

/-- The replacements are those of the paths, one by one. -/
theorem replacements_spec {work : Work} {paths : List String} (computed : replacements call work paths = .ok all) :
    (∀ path ∈ paths, ∃ refs, ∀ replacement, replacementFor call work.notes path refs = some replacement →
      replacement ∈ all) ∧
    ∀ replacement ∈ all, ∃ path refs, replacementFor call work.notes path refs = some replacement := by
  induction paths generalizing all with
  | nil =>
    cases computed
    exact ⟨by simp, by simp⟩
  | cons path rest ih =>
    rw [replacements] at computed
    rcases read : dependentRefs call work.store path with error | refs
    · rw [read] at computed
      cases computed
    · rcases later : replacements call work rest with error | others
      · rw [read, later] at computed
        cases computed
      · rw [read, later] at computed
        cases computed
        obtain ⟨complete, sound⟩ := ih later
        constructor
        · intro some listed
          rcases mem_cons.mp listed with same | other
          · refine ⟨refs, fun replacement chosen => mem_append_left _ ?_⟩
            rw [← same, chosen]
            exact mem_singleton.mpr rfl
          · obtain ⟨known, member⟩ := complete some other
            exact ⟨known, fun replacement chosen => mem_append_right _ (member replacement chosen)⟩
        · intro replacement listed
          rcases mem_append.mp listed with first | other
          · exact ⟨path, refs, Option.mem_toList.mp first⟩
          · exact sound replacement other

/-- Every due reference of an indexed file is in the scope of the next resolution. -/
structure Ready (sites : List ReferenceSite) (files : List String) (store : SyncStore) (notes : ChangedNotes) :
    Prop where
  recovers : store.Recovers
  waits : ∀ row ∈ store.refs, row.due = true → store.indexed row.filePath = true →
    row.state = .pending ∧ (row.filePath ∈ notes.reindexed ++ files ∨ row.site ∈ sites)

theorem covered_dependent {work : Work} (covers : work.notes.Covers row) (outside : row.filePath ∉ work.notes.reindexed)
    (present : (call.disk row.filePath).isSome = true) : row.filePath ∈ dependents call work := by
  apply mem_filter.mpr
  constructor
  · rw [mem_dedup]
    apply mem_append_left
    rcases covers with whole | noted
    · exact mem_append_right _ whole
    · exact mem_append_left _ (mem_map.mpr ⟨(row.filePath, row.site), noted, rfl⟩)
  · simp [outside, present]

/-- The replaced store has every due reference in the scope of the next resolution. -/
theorem Gathered.replaced {work : Work} (gathered : Gathered call work.store work.notes)
    (computed : replacements call work (dependents call work) = .ok all) :
    Ready (all.flatMap Replacement.sitesOf) (all.flatMap Replacement.files) (all.foldl Replacement.apply work.store)
      work.notes := by
  obtain ⟨complete, sound⟩ := replacements_spec computed
  obtain ⟨files, markers, themes⟩ := @replaced_rest work.store all
  constructor
  case recovers =>
    cases dirty : work.notes.dirty with
    | true => exact recovers_of_bare (markers.trans (gathered.bare dirty))
    | false =>
      obtain ⟨noSites, _, fallbacks⟩ := gathered.quiet dirty
      intro row stored due indexed
      rcases replaced_rows stored with ⟨replacement, listed, inserts⟩ | ⟨old, _⟩
      · obtain ⟨path, refs, chosen⟩ := sound replacement listed
        obtain ⟨whole, same⟩ := replacementFor_clean dirty noSites chosen
        rw [same] at inserts
        obtain ⟨file, known, named, rereads⟩ := fallbacks path whole
        refine .inr ⟨file, files ▸ known, named.trans inserts.1.symm, ?_⟩
        rw [SyncStore.Rereads, markers, themes]
        exact rereads
      · rw [SyncStore.indexed, files] at indexed
        have found := gathered.recovers row old due indexed
        simp only [SyncStore.Rereads, files, markers, themes] at found ⊢
        exact found
  case waits =>
    intro row stored due indexed
    rcases replaced_rows stored with ⟨replacement, listed, inserts⟩ | ⟨old, kept⟩
    · obtain ⟨path, refs, chosen⟩ := sound replacement listed
      obtain ⟨pending, scope⟩ := replacementFor_inserts chosen inserts
      refine ⟨pending, scope.imp (fun file => ?_) fun site => ?_⟩
      · exact mem_append_right _ (mem_flatMap.mpr ⟨replacement, listed, file⟩)
      · exact mem_flatMap.mpr ⟨replacement, listed, site⟩
    · rw [SyncStore.indexed, files] at indexed
      rcases gathered.known row old due indexed with ⟨reindexed, pending⟩ | ⟨outside, covers, present⟩
      · exact ⟨pending, .inl (mem_append_left _ reindexed)⟩
      · obtain ⟨refs, member⟩ := complete row.filePath (covered_dependent covers outside present)
        obtain ⟨replacement, chosen, removes⟩ := replacementFor_removes covers refs
        exact absurd removes (kept replacement (member replacement chosen))

/-- Refreshing the dependents makes ready for resolving. -/
theorem refreshDependentRefs_runs :
    Runs (Gathered call) (refreshDependentRefs call) fun scope => Ready scope.1 scope.2 := by
  apply Runs.read
  intro before gathered
  have computed : Runs (fun store notes => store = before.store ∧ notes = before.notes)
      (Program.lift (replacements call before (dependents call before))) fun all store notes =>
        replacements call before (dependents call before) = .ok all ∧ store = before.store ∧ notes = before.notes := by
    apply Establishes.lift
    · exact fun all found work inside => ⟨found, inside⟩
    · intro _ _ work inside
      rw [inside.1]
      exact gathered.recovers
  apply computed.bind
  intro all
  apply Runs.ite
  · intro empty
    have none : all = [] := isEmpty_iff.mp empty
    apply Runs.pure
    intro store notes ⟨found, sameStore, sameNotes⟩
    have ready := gathered.replaced found
    rw [none] at ready
    rw [sameStore, sameNotes]
    exact ready
  · intro _
    have written : Runs (fun store notes => replacements call before (dependents call before) = .ok all ∧
        store = before.store ∧ notes = before.notes) (Sync.write fun store => all.foldl Replacement.apply store)
          fun _ => Ready (all.flatMap Replacement.sitesOf) (all.flatMap Replacement.files) := by
      apply Runs.write
      · intro store notes ⟨_, sameStore, _⟩
        rw [sameStore]
        exact gathered.recovers
      · intro store notes ⟨found, sameStore, sameNotes⟩
        rw [sameStore, sameNotes]
        exact gathered.replaced found
    exact written.bind fun _ => Runs.pure fun _ _ ready => ready

end Refreshing

section Settling
variable {call : SyncCall} {store : SyncStore} {row : RefRow}
  {chosen : RefRow → Bool} {updates : List (SyncStore → SyncStore)}

theorem given_not_due (call : SyncCall) (row : RefRow) : (row.given call).due = false := by
  unfold RefRow.given RefRow.due
  split <;> rfl

/-- A row that is due after a resolution was due before it and was not chosen. -/
theorem resolved_due (stored : row ∈ (resolveRows call chosen store).refs) (due : row.due = true) :
    row ∈ store.refs ∧ (row.unresolved && chosen row) = false := by
  obtain ⟨old, known, same⟩ := mem_map.mp stored
  split at same
  next =>
    rw [← same, given_not_due] at due
    cases due
  next unchosen => exact ⟨same ▸ known, same ▸ Bool.eq_false_of_not_eq_true unchosen⟩

theorem resolved_recovers (recovers : store.Recovers) : (resolveRows call chosen store).Recovers :=
  recovers.mono rfl (fun row stored due => ⟨row, (resolved_due stored due).1, due, rfl⟩) (fun _ present => present)
    fun _ listed => listed

theorem resolved_settled (settled : store.Settled) : (resolveRows call chosen store).Settled := by
  intro row stored indexed
  by_contra notDue
  have due : row.due = true := Bool.eq_true_of_not_eq_false notDue
  rw [settled row (resolved_due stored due).1 indexed] at due
  cases due

/-- Resolving settles a store that is ready. -/
theorem resolveIncremental_runs (sites : List ReferenceSite) (files : List String) (notes : ChangedNotes) :
    Runs (fun current noted => Ready sites files current noted ∧ noted = notes)
      (resolveIncrementalAndPersist call sites (notes.reindexed ++ files)) fun _ current _ => current.Settled := by
  apply Runs.writeAll
  · intro store noted ⟨ready, _⟩
    exact ⟨ready.recovers, resolved_recovers ready.recovers, trivial⟩
  · intro store noted ⟨ready, same⟩ row stored indexed
    by_contra notDue
    have due : row.due = true := Bool.eq_true_of_not_eq_false notDue
    obtain ⟨middle, second⟩ := resolved_due stored due
    obtain ⟨old, first⟩ := resolved_due middle due
    obtain ⟨pending, scope⟩ := ready.waits row old due indexed
    rw [same] at scope
    -- a pending row in scope is chosen by the first pass or by the second
    have inScope :
      (decide (row.filePath ∈ notes.reindexed ++ files) || decide (row.site ∈ sites) || call.retried row) = true := by
      rcases scope with file | site
      · simp only [decide_eq_true file, Bool.true_or]
      · simp only [decide_eq_true site, Bool.or_true, Bool.true_or]
    have unresolved : row.unresolved = true := by simp [RefRow.unresolved, pending]
    simp only [unresolved, inScope, Bool.true_and] at first second
    rw [first] at second
    cases second

theorem along_settled (settled : store.Settled)
    (kept : ∀ update ∈ updates, ∀ store : SyncStore, store.Settled → (update store).Settled) : Along updates store := by
  induction updates generalizing store with
  | nil => trivial
  | cons update rest ih =>
    obtain ⟨first, later⟩ := forall_mem_cons.mp kept
    exact ⟨settled.recovers, ih (first store settled) later⟩

theorem foldl_settled (settled : store.Settled)
    (kept : ∀ update ∈ updates, ∀ store : SyncStore, store.Settled → (update store).Settled) :
    (updates.foldl (fun store update => update store) store).Settled := by
  induction updates generalizing store with
  | nil => exact settled
  | cons update rest ih =>
    obtain ⟨first, later⟩ := forall_mem_cons.mp kept
    exact ih (first store settled) later

/-- Writes that touch neither files nor references, or only resolve, keep every reference given. -/
theorem settledWrites_runs (kept : ∀ update ∈ updates, ∀ store : SyncStore, store.Settled → (update store).Settled) :
    Runs (fun store _ => store.Settled) (writeAll updates) fun _ store _ => store.Settled :=
  .writeAll (fun _ _ settled => along_settled settled kept) fun _ _ settled => foldl_settled settled kept

end Settling

section Syncs
variable {call : SyncCall} {start : SyncStore}

/-- Reconciling settles what was swept. -/
theorem reconcile_runs (recovers : start.Recovers) (covered : Covered call start) : Runs (Swept call start)
      (reconcile call (call.missing start) (call.themes start) (call.controls (call.missing start)))
      fun _ store _ => store.Settled := by
  apply (applyFrameworkChange_runs recovers).bind
  intro _
  apply (noteLanes_runs recovers covered).bind
  intro _
  apply persistFrameworks_runs.bind
  intro _
  apply refreshDependentRefs_runs.bind
  intro ⟨sites, files⟩
  apply Runs.read
  intro work ready
  have resolved : Runs (fun store notes => store = work.store ∧ notes = work.notes)
      (resolveIncrementalAndPersist call sites (work.notes.reindexed ++ files)) fun _ store _ => store.Settled := by
    apply (resolveIncremental_runs sites files work.notes).weaken
    · intro store notes ⟨sameStore, sameNotes⟩
      rw [sameStore, sameNotes]
      exact ⟨ready, rfl⟩
    · exact fun _ _ _ settled => settled
  apply resolved.bind
  intro _
  have finished : Runs (fun store _ => store.Settled) (writeAll [fun store => { store with pendingThemes := [] },
      fun store => { store with frameworks := some call.detected }]) fun _ store _ => store.Settled := by
    apply settledWrites_runs
    intro update listed
    simp only [mem_cons, not_mem_nil, or_false] at listed
    rcases listed with rfl | rfl <;> exact fun _ settled => settled
  apply finished.bind
  intro _
  apply settledWrites_runs
  intro update listed
  obtain ⟨marker, _, same⟩ := mem_map.mp listed
  rw [← same]
  exact fun _ settled => settled

/-- Reconciling, where it is called for, settles what was swept. -/
theorem reconcileCalled_runs (recovers : start.Recovers) (covered : Covered call start) :
    Runs (fun store notes => Swept call start store notes ∧ (notes.dirty = true → notes.reindexed ≠ [] ∨
        call.controls (call.missing start) ≠ [] ∨ call.pubspecsMoved = true))
      (reconcileCalled call (call.missing start) (call.themes start) (call.controls (call.missing start)))
      fun _ store _ => store.Settled := by
  apply Runs.read
  intro work ⟨swept, still⟩
  apply Runs.ite
  · intro _
    apply (reconcile_runs recovers covered).weaken
    · intro store notes ⟨sameStore, sameNotes⟩
      rw [sameStore, sameNotes]
      exact swept
    · exact fun _ _ _ settled => settled
  · intro uncalled
    apply Runs.pure
    intro store notes ⟨sameStore, _⟩
    rw [sameStore]
    exact uncalled_settled recovers swept.tracked still (Bool.eq_false_of_not_eq_true uncalled)

theorem sweepIncomplete_runs :
    Runs (fun store _ => store.Settled) (sweepIncomplete call) fun _ store _ => store.Settled := by
  apply Runs.read
  intro work settled
  apply Runs.ite
  · intro _
    have swept : Runs (fun store _ => store.Settled) (sweepOrphanedRefs call) fun _ store _ => store.Settled := by
      apply settledWrites_runs
      intro update listed
      simp only [mem_cons, not_mem_nil, or_false] at listed
      rcases listed with rfl | rfl
      · exact fun _ settled => resolved_settled settled
      · exact fun _ settled => settled
    exact swept.weaken (fun store notes same => same.1 ▸ settled) fun _ _ _ settled => settled
  · intro _
    exact .pure fun store notes same => same.1 ▸ settled

/-- A covered sync gives every reference to the resolver, and wherever it stops the next one can tell what is due. -/
theorem syncPathsWithStore_runs (recovers : start.Recovers) (covered : Covered call start) :
    Runs (fun store notes => store = start ∧ notes = .fresh)
    (syncPathsWithStore call) fun _ store _ => store.Settled := by
  apply Runs.read
  intro work ⟨sameStore, sameNotes⟩
  rw [sameStore, sameNotes]
  apply (withdrawRebuilt_runs recovers).bind
  intro _
  apply (storeThemes_runs recovers).bind
  intro _
  have scanned := @syncPaths_runs call start recovers call.handed (fun _ listed => listed) []
  apply scanned.bind
  intro _
  rw [append_nil]
  apply (moveControls_runs recovers).bind
  intro _
  apply (reconcileCalled_runs recovers covered).bind
  intro _
  exact sweepIncomplete_runs

theorem runSync_outcome (recovers : start.Recovers) (covered : Covered call start) (budget : Option Nat) :
    ((runSync call budget start).1 = .ok () → (runSync call budget start).2.Settled) ∧
      (runSync call budget start).2.Recovers := by
  have ended := syncPathsWithStore_runs recovers covered ⟨budget, start, .fresh⟩ ⟨rfl, rfl⟩
  unfold runSync
  rcases result : (syncPathsWithStore call).exec ⟨budget, start, .fresh⟩ with ⟨error | value, work⟩ <;>
    rw [result] at ended
  · exact ⟨(fun completed => by cases completed), ended⟩
  · exact ⟨fun _ => ended, SyncStore.Settled.recovers ended⟩

instance (store : SyncStore) : Decidable store.Settled := by
  unfold SyncStore.Settled
  infer_instance

/-- Syncs follow one another over a changing tree, and each of them may stop. -/
inductive Reached (start : SyncStore) : SyncStore → Prop where
  | start : Reached start start
  | sync {store : SyncStore} (call : SyncCall) (budget : Option Nat) (earlier : Reached start store)
      (covered : Covered call store) : Reached start (runSync call budget store).2

theorem Reached.recovers {store : SyncStore} (settled : start.Settled) (reached : Reached start store) :
    store.Recovers := by
  induction reached with
  | start => exact settled.recovers
  | sync call budget _ covered ih => exact (runSync_outcome ih covered budget).2

/-- After covered syncs, any of which may have stopped, a covered sync that completes leaves no reference due. -/
theorem completed_sync_settles {store : SyncStore} (settled : start.Settled) (reached : Reached start store)
    (call : SyncCall)
    (budget : Option Nat) (covered : Covered call store) (completed : (runSync call budget store).1 = .ok ()) :
    (runSync call budget store).2.Settled :=
  (runSync_outcome (reached.recovers settled) covered budget).1 completed

section Examples

def oneSite : ReferenceSite := ⟨"caller", 1, 0⟩

/-- A tree with one changed file that makes one reference. -/
def oneFile (path : String) (language : Language) : String → Option DiskEntry := fun other =>
  if other = path then some (.file ⟨1, 2, some (.text "new" language [oneSite])⟩) else none

def plainCall (paths : List String) (disk : String → Option DiskEntry) : SyncCall where
  paths := paths
  inScope _ := true
  rehash _ := false
  disk := disk
  unreadableRows _ := false
  movedThemes := []
  themePaths := []
  movedControls := []
  pubspecsMoved := false
  detected := []
  selected _ := []
  namedSites := []
  retriedFiles := []
  receiverSites := []
  frameworkSites _ := []
  readsStored _ := false
  wiring _ := false
  retried _ := false
  resolve _ := none

def indexedOnce (path : String) (language : Language) : SyncStore :=
  ⟨[⟨path, language, 1, 1, "old"⟩], [⟨path, oneSite, .parked⟩], Marker.all, some [], [], false⟩

/-- The sync of the changed file stops after the file was extracted and before its reference is resolved. -/
def stoppedOnce (path : String) (language : Language) : Except SyncError Unit × SyncStore :=
  runSync (plainCall [path] (oneFile path language)) (some 31) (indexedOnce path language)

/-- A file of TypeScript that changes. -/
theorem typescript_sync_settles :
    (stoppedOnce "a.ts" .typeScript).1 = .error .stopped ∧ ¬ (stoppedOnce "a.ts" .typeScript).2.Settled ∧
      (runSync (plainCall [] (oneFile "a.ts" .typeScript)) none (stoppedOnce "a.ts" .typeScript).2).2.Settled :=
  ⟨by decide +kernel, by decide +kernel,
    @completed_sync_settles (indexedOnce "a.ts" .typeScript) _ (by decide +kernel)
      (.sync _ _ .start (by decide +kernel)) _ _ (by decide +kernel) (by decide +kernel)⟩

/-- An Erlang file has no marker, so the next sync leaves its reference waiting. -/
theorem erlang_reference_stays_due :
    (indexedOnce "a.erl" .erlang).Settled ∧ (stoppedOnce "a.erl" .erlang).1 = .error .stopped ∧
      (runSync (plainCall [] (oneFile "a.erl" .erlang)) none (stoppedOnce "a.erl" .erlang).2).1 = .ok () ∧
      ¬ (runSync (plainCall [] (oneFile "a.erl" .erlang)) none (stoppedOnce "a.erl" .erlang).2).2.Settled := by
  decide +kernel

end Examples

end Syncs

end Codegraph.Sync
