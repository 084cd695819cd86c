import Codegraph.Store.References

/- This file shows that resolving and requeuing references neither loses nor duplicates one. -/

namespace Codegraph.Store
open Codegraph.Core KeyedTables List

/-- An extraction places its nodes and its references in the file whose path is hashed into their node ids. -/
structure Batch (owner : String → String) where
  nodes : List StoredNode
  references : List UnresolvedRef
  homed : ∀ node ∈ nodes, node.filePath = owner node.id
  placed : ∀ reference ∈ references, reference.filePath = owner reference.fromNodeId

/-- A batch of one file reports references of that file alone. -/
structure FileBatch (owner : String → String) extends Batch owner where
  file : String
  whole : ∀ reference ∈ references, reference.filePath = file

variable {owner : String → String}
  {references : List UnresolvedRef} {before state reached : ReferenceStore} {filePath : String}
  {nodes : List StoredNode}

def FileBatch.kept (batch : FileBatch owner) : List UnresolvedRef :=
  batch.references.filter (fun reference => reference.fromNodeId ∈ batch.nodes.map StoredNode.id)

/-- A file's extraction clears its rows and its nodes before it stores the new ones. -/
def reextractIntoStore (json : CandidateText) (batch : FileBatch owner) (committed : Bool)
    (state : ReferenceStore) : ReferenceStore :=
  let prepared := upsertNodes batch.nodes
    (deleteFileRecord batch.file (deleteUnresolvedRefsByFile batch.file state))
  if committed then
    { insertUnresolvedRefs json batch.kept prepared with
      extracted := Function.update prepared.extracted batch.file (batch.kept.map (refColumns json) : List RefColumns) }
  else prepared

/-- A framework adds nodes and references to files that were extracted before. -/
def persistFrameworks (json : CandidateText) (batch : Batch owner) (committed : Bool)
    (state : ReferenceStore) : ReferenceStore :=
  let prepared := upsertNodes batch.nodes state
  let kept := (batch.references.filter (fun reference => prepared.hasNode reference.fromNodeId)).map (refColumns json)
  if committed then
    { insertUnresolvedRefs json batch.references prepared with
      extracted := fun file => prepared.extracted file +
        (kept.filter (fun columns => columns.filePath = file) : List RefColumns) }
  else prepared

/-- A dependent is requeued whole, at its sites, or at those of its references that stand on given sites. -/
inductive RequeueTarget (owner : String → String) where
  | file (filePath : String)
  | sites (chosen : List ReferenceSite)
  | fileSites (filePath : String) (chosen : List ReferenceSite)
      (inside : ∀ site ∈ chosen, owner site.fromNodeId = filePath)

def RequeueTarget.replacement (json : CandidateText) (state : ReferenceStore) :
    RequeueTarget owner → Except RowError ResolutionReplacement
  | .file filePath => (storedRefsOfFile json filePath state).map (.file filePath)
  | .sites chosen => (storedRefsAtSites json chosen state).map (.sites chosen)
  | .fileSites filePath chosen _ =>
    (storedRefsOfFile json filePath state).map (fun references =>
      .sites chosen (references.filter (fun reference =>
        (⟨reference.fromNodeId, reference.line, reference.col⟩ : ReferenceSite) ∈ chosen)))

/-- Every dependent is read before any of them changes, and a failed read changes nothing. -/
def refreshDependentRefs (json : CandidateText) (targets : List (RequeueTarget owner))
    (state : ReferenceStore) : ReferenceStore :=
  match targets.mapM (RequeueTarget.replacement json state) with
  | .ok replacements => replaceResolutionStates json replacements state
  | .error _ => state

/-- Each call commits or is rolled back. -/
inductive ReferenceOperation (owner : String → String) where
  | extract (batch : FileBatch owner) (committed : Bool)
  | persist (batch : Batch owner) (committed : Bool)
  | resolve (ids : List Int) (committed : Bool)
  | requeue (targets : List (RequeueTarget owner)) (committed : Bool)

def ReferenceOperation.exec (json : CandidateText) (state : ReferenceStore) :
    ReferenceOperation owner → ReferenceStore
  | .extract batch committed => reextractIntoStore json batch committed state
  | .persist batch committed => persistFrameworks json batch committed state
  | .resolve ids committed => if committed then deleteResolvedUnresolvedRefs ids state else state
  | .requeue targets committed => if committed then refreshDependentRefs json targets state else state

def execAll (json : CandidateText) (operations : List (ReferenceOperation owner)) (state : ReferenceStore) :
    ReferenceStore :=
  operations.foldl (ReferenceOperation.exec json) state

/-- The rows of both tables agree with what was extracted, and each stands on a node of its own file. -/
structure Conserved (json : CandidateText) (owner : String → String) (state : ReferenceStore) : Prop where
  sound : state.tables.Sound
  anchored : ∀ columns ∈ state.tables.contents, state.hasNode columns.fromNodeId = true
  placed : ∀ columns ∈ state.tables.contents, columns.filePath = owner columns.fromNodeId
  written : ∀ columns ∈ state.tables.contents, ∃ reference, columns = refColumns json reference
  homed : ∀ node ∈ state.nodes, node.filePath = owner node.id
  balanced : ∀ file, state.tables.contents.filter (fun columns => columns.filePath = file) = state.extracted file

variable {json : CandidateText}

theorem Conserved.empty : Conserved json owner ReferenceStore.empty where
  sound := .empty
  anchored _ member := by cases member
  placed _ member := by cases member
  written _ member := by cases member
  homed _ member := by cases member
  balanced _ := rfl

/-- A written row reads back to a reference that writes the same columns. -/
theorem rowToUnresolvedRef_refColumns (json : CandidateText) (id : Int) (reference : UnresolvedRef) :
    ∃ found, rowToUnresolvedRef json ⟨id, refColumns json reference⟩ = .ok found ∧
      refColumns json found = refColumns json reference := by
  have kinds : ∀ kind : EdgeKind, parseEdgeKind kind.asStr = .ok kind := by
    intro kind
    simp only [parseEdgeKind, edgeKindNamed_asStr]
  have languages : ∀ language : Language, parseStoredLanguage language.asStr = .ok language := by
    intro language
    simp only [parseStoredLanguage, parseLanguage_asStr]
  have texts : ∀ candidates, parseOptionalJsonArray json (candidates.map json.toText) = .ok candidates := by
    intro candidates
    cases candidates with
    | none => rfl
    | some list => simp only [parseOptionalJsonArray, Option.map_some, json.readBack]
  have subkinds : ∀ subkind : Option ReferenceSubkind,
      parseReferenceSubkind (subkind.map ReferenceSubkind.asStr) = .ok subkind := by
    intro subkind
    cases subkind with
    | none => rfl
    | some label => simp only [parseReferenceSubkind, Option.map_some, subkindNamed_asStr]
  cases marked : reference.isFunctionRef with
  | true =>
    refine ⟨{ reference with id := some id, referenceKind := .references }, ?_, ?_⟩
    · simp only [rowToUnresolvedRef, refColumns, marked, if_true, decide_true, texts, languages, subkinds]
      rfl
    · simp only [refColumns, marked, if_true]
  | false =>
    have plain := asStr_ne_functionRef reference.referenceKind
    refine ⟨{ reference with id := some id }, ?_, ?_⟩
    · simp only [rowToUnresolvedRef, refColumns, marked, Bool.false_eq_true, if_false, plain, decide_false,
        kinds, texts, languages, subkinds]
      rfl
    · rfl

/-- Reading written rows gives references that write the same columns. -/
theorem readRows_columns {rows : List (Keyed RefColumns)}
    (written : ∀ row ∈ rows, ∃ reference, row.value = refColumns json reference)
    (read : readRows json rows = .ok references) : (references.map (refColumns json)).Perm (rows.map Keyed.value) := by
  have sorted := mergeSort_perm rows (fun first second => first.id ≤ second.id)
  rw [readRows] at read
  generalize ordered : rows.mergeSort (fun first second => decide (first.id ≤ second.id)) = list at read sorted
  have inOrder : references.map (refColumns json) = list.map Keyed.value := by
    have present : ∀ row ∈ list, ∃ reference, row.value = refColumns json reference :=
      fun row member => written row (sorted.mem_iff.mp member)
    clear written ordered sorted
    induction list generalizing references with
    | nil =>
      cases read
      rfl
    | cons row rest ih =>
      obtain ⟨reference, stored⟩ := present row mem_cons_self
      obtain ⟨found, parsed, same⟩ := rowToUnresolvedRef_refColumns json row.id reference
      have whole : rowToUnresolvedRef json row = .ok found := by
        rw [← parsed, ← stored]
      rw [mapM_cons, whole] at read
      cases others : rest.mapM (fun row =>
          (rowToUnresolvedRef json row).map (fun reference => { reference with id := none })) with
      | error error =>
        rw [others] at read
        cases read
      | ok tail =>
        rw [others] at read
        cases read
        rw [map_cons, map_cons, ih others fun later member =>
          present later (mem_cons_of_mem _ member), stored, ← same]
        rfl
  rw [inOrder]
  exact sorted.map Keyed.value

/-- A requeued store holds the same contents under new keys. -/
structure Requeued (before after : ReferenceStore) : Prop where
  sound : after.tables.Sound
  contents : after.tables.contents = before.tables.contents
  nodes : after.nodes = before.nodes
  extracted : after.extracted = before.extracted

theorem Conserved.requeued {after : ReferenceStore} (conserved : Conserved json owner before)
    (requeued : Requeued before after) : Conserved json owner after := by
  refine ⟨requeued.sound, ?_, ?_, ?_, ?_, ?_⟩
  · rw [requeued.contents]
    intro columns member
    rw [ReferenceStore.hasNode, requeued.nodes]
    exact conserved.anchored columns member
  · rw [requeued.contents]
    exact conserved.placed
  · rw [requeued.contents]
    exact conserved.written
  · rw [requeued.nodes]
    exact conserved.homed
  · rw [requeued.contents, requeued.extracted]
    exact conserved.balanced

/-- Inserting references whose sources all exist skips none. -/
theorem insertUnresolvedRefs_anchored (anchored : ∀ reference ∈ references, state.hasNode reference.fromNodeId = true) :
    insertUnresolvedRefs json references state =
      { state with tables := state.tables.addAll (references.map (refColumns json)) } := by
  have all : references.filter (fun reference => state.hasNode reference.fromNodeId) = references :=
    filter_eq_self.mpr anchored
  simp only [insertUnresolvedRefs, all]

/-- The insertion skips exactly the references without a source. -/
theorem insertUnresolvedRefs_filter : insertUnresolvedRefs json references state =
      insertUnresolvedRefs json
        (references.filter (fun reference => state.hasNode reference.fromNodeId)) state := by
  simp only [insertUnresolvedRefs, filter_filter, Bool.and_self]

/-- Erasing the matching rows and inserting references that write them again requeues the store. -/
theorem Requeued.replace {before reached : ReferenceStore} (conserved : Conserved json owner before)
    (requeued : Requeued before reached) (matching : RefColumns → Bool) {references : List UnresolvedRef}
    (same : ((references.map (refColumns json) : List RefColumns) : Multiset RefColumns) =
      before.tables.contents.filter (fun columns => matching columns = true)) :
    Requeued before (insertUnresolvedRefs json references (reached.eraseRefs matching)) := by
  have anchored : ∀ reference ∈ references, (reached.eraseRefs matching).hasNode reference.fromNodeId = true := by
    intro reference member
    have stored : refColumns json reference ∈ before.tables.contents := by
      have inside : refColumns json reference ∈
          ((references.map (refColumns json) : List RefColumns) : Multiset RefColumns) :=
        mem_map_of_mem member
      rw [same] at inside
      exact (Multiset.mem_filter.mp inside).1
    have known := conserved.anchored _ stored
    rw [ReferenceStore.hasNode, ← requeued.nodes] at known
    exact known
  rw [insertUnresolvedRefs_anchored anchored]
  refine ⟨(requeued.sound.erase matching).addAll _, ?_, requeued.nodes, requeued.extracted⟩
  rw [← requeued.contents]
  apply Tables.contents_requeue
  rw [same, requeued.contents]

theorem Requeued.refl (conserved : Conserved json owner state) : Requeued state state :=
  ⟨conserved.sound, rfl, rfl, rfl⟩

theorem Conserved.rows_written (conserved : Conserved json owner state)
    {row : Keyed RefColumns} (member : row ∈ state.tables.rows) : ∃ reference, row.value = refColumns json reference :=
  conserved.written row.value (mem_map_of_mem member)

/-- The references read of a file write exactly the file's contents. -/
theorem storedRefsOfFile_columns
    (conserved : Conserved json owner state) (read : storedRefsOfFile json filePath state = .ok references) :
    ((references.map (refColumns json) : List RefColumns) : Multiset RefColumns) =
      state.tables.contents.filter (fun columns => columns.filePath = filePath) := by
  have perm := readRows_columns (fun row member => conserved.rows_written (mem_filter.mp member).1) read
  rw [Tables.contents, Multiset.filter_coe, filter_map]
  exact Multiset.coe_eq_coe.mpr perm

/-- Reading distinct sites one after the other gives every row that stands on one of them. -/
theorem flatMap_sites (rows : List (Keyed RefColumns)) {sites : List ReferenceSite} (distinct : sites.Nodup) :
    (((sites.flatMap (fun site => rows.filter (fun row => row.value.site = site))).map Keyed.value :
      List RefColumns) : Multiset RefColumns) =
      ((rows.map Keyed.value : List RefColumns) : Multiset RefColumns).filter
        (fun columns => columns.site ∈ sites) := by
  induction sites with
  | nil => simp
  | cons site rest ih =>
    rw [nodup_cons] at distinct
    have apart : ((rows.map Keyed.value : List RefColumns) : Multiset RefColumns).filter
        (fun columns => columns.site = site ∧ columns.site ∈ rest) = 0 := by
      apply Multiset.filter_eq_nil.mpr
      rintro columns - ⟨rfl, later⟩
      exact distinct.1 later
    have first : (((rows.filter (fun row => row.value.site = site)).map Keyed.value : List RefColumns) :
        Multiset RefColumns) =
        ((rows.map Keyed.value : List RefColumns) : Multiset RefColumns).filter
          (fun columns => columns.site = site) := by
      rw [Multiset.filter_coe, filter_map]
      rfl
    rw [flatMap_cons, map_append, ← Multiset.coe_add, ih distinct.2, first,
      Multiset.filter_add_filter, apart, Multiset.add_zero]
    simp only [mem_cons]

/-- The references at some sites are the table's contents at these sites. -/
theorem storedRefsAtSites_columns {sites : List ReferenceSite} (conserved : Conserved json owner state)
    (read : storedRefsAtSites json sites state = .ok references) :
    ((references.map (refColumns json) : List RefColumns) : Multiset RefColumns) =
      state.tables.contents.filter (fun columns => columns.site ∈ sites) := by
  have written : ∀ row ∈ sites.dedup.flatMap (fun site => state.tables.rows.filter (fun row => row.value.site = site)),
      ∃ reference, row.value = refColumns json reference := by
    intro row member
    obtain ⟨site, -, found⟩ := mem_flatMap.mp member
    exact conserved.rows_written (mem_filter.mp found).1
  have perm := readRows_columns written read
  have gathered := flatMap_sites state.tables.rows sites.nodup_dedup
  simp only [mem_dedup] at gathered
  rw [Tables.contents, ← gathered]
  exact Multiset.coe_eq_coe.mpr perm

/-- Clearing sites one by one clears all of their rows. -/
theorem foldl_eraseRefs (sites : List ReferenceSite) (state : ReferenceStore) :
    sites.foldl (fun reached site => reached.eraseRefs (fun columns => columns.site = site)) state =
      state.eraseRefs (fun columns => columns.site ∈ sites) := by
  induction sites generalizing state with
  | nil => simp [ReferenceStore.eraseRefs, Tables.erase]
  | cons site rest ih =>
    rw [foldl_cons, ih]
    simp only [ReferenceStore.eraseRefs, Tables.erase, filter_filter, mem_cons, Bool.decide_or,
      Bool.not_or, Bool.and_comm]

theorem Requeued.atSites {chosen : List ReferenceSite}
    (conserved : Conserved json owner before) (requeued : Requeued before reached)
    (same : ((references.map (refColumns json) : List RefColumns) : Multiset RefColumns) =
      before.tables.contents.filter (fun columns => columns.site ∈ chosen)) :
    Requeued before (replaceSiteResolutionIn json chosen references reached) := by
  unfold replaceSiteResolutionIn
  split
  · exact requeued
  · rw [foldl_eraseRefs]
    apply requeued.replace conserved
    rw [same]
    simp only [mem_dedup, decide_eq_true_eq]

/-- The references of a file that stand on its own sites are all that stand there. -/
theorem Conserved.file_sites {chosen : List ReferenceSite}
    (conserved : Conserved json owner state) (inside : ∀ site ∈ chosen, owner site.fromNodeId = filePath) :
    (state.tables.contents.filter (fun columns => columns.filePath = filePath)).filter
        (fun columns => columns.site ∈ chosen) =
      state.tables.contents.filter (fun columns => columns.site ∈ chosen) := by
  rw [Multiset.filter_filter]
  apply Multiset.filter_congr
  intro columns member
  constructor
  · exact fun both => both.1
  · intro standing
    exact ⟨standing, (conserved.placed columns member).trans (inside columns.site standing)⟩

/-- Every replacement that was read from the store before it requeues that store. -/
theorem Requeued.replacement {target : RequeueTarget owner}
    {replacement : ResolutionReplacement} (conserved : Conserved json owner before)
    (requeued : Requeued before reached) (read : target.replacement json before = .ok replacement) :
    Requeued before (replaceResolution json reached replacement) := by
  cases target with
  | file filePath =>
    cases found : storedRefsOfFile json filePath before with
    | error error => simp [RequeueTarget.replacement, found, Except.map] at read
    | ok references =>
      simp only [RequeueTarget.replacement, found, Except.map, Except.ok.injEq] at read
      subst read
      apply requeued.replace conserved
      rw [storedRefsOfFile_columns conserved found]
      simp only [decide_eq_true_eq]
  | sites chosen =>
    cases found : storedRefsAtSites json chosen before with
    | error error => simp [RequeueTarget.replacement, found, Except.map] at read
    | ok references =>
      simp only [RequeueTarget.replacement, found, Except.map, Except.ok.injEq] at read
      subst read
      exact requeued.atSites conserved (storedRefsAtSites_columns conserved found)
  | fileSites filePath chosen inside =>
    cases found : storedRefsOfFile json filePath before with
    | error error => simp [RequeueTarget.replacement, found, Except.map] at read
    | ok references =>
      simp only [RequeueTarget.replacement, found, Except.map, Except.ok.injEq] at read
      subst read
      apply requeued.atSites conserved
      rw [← conserved.file_sites inside, ← storedRefsOfFile_columns conserved found, Multiset.filter_coe,
        filter_map]
      rfl

/-- A run of replacements that were all read before it requeues the store. -/
theorem Requeued.all {targets : List (RequeueTarget owner)}
    {replacements : List ResolutionReplacement} (conserved : Conserved json owner before)
    (requeued : Requeued before reached)
    (read : targets.mapM (RequeueTarget.replacement json before) = .ok replacements) :
    Requeued before (replaceResolutionStates json replacements reached) := by
  induction targets generalizing reached replacements with
  | nil =>
    cases read
    exact requeued
  | cons target rest ih =>
    rw [mapM_cons] at read
    cases first : target.replacement json before with
    | error error =>
      rw [first] at read
      cases read
    | ok replacement =>
      rw [first] at read
      cases others : rest.mapM (RequeueTarget.replacement json before) with
      | error error =>
        rw [others] at read
        cases read
      | ok later =>
        rw [others] at read
        cases read
        change Requeued before (replaceResolutionStates json later (replaceResolution json reached replacement))
        exact ih (requeued.replacement conserved first) others

theorem refreshDependentRefs_requeued (conserved : Conserved json owner state)
    (targets : List (RequeueTarget owner)) : Requeued state (refreshDependentRefs json targets state) := by
  unfold refreshDependentRefs
  split
  · rename_i read
    exact (Requeued.refl conserved).all conserved read
  · exact .refl conserved

theorem deleteResolvedUnresolvedRefs_requeued (conserved : Conserved json owner state)
    (ids : List Int) : Requeued state (deleteResolvedUnresolvedRefs ids state) := by
  have chunks : ∀ (parts : List (List Int)) (tables : Tables RefColumns), tables.Sound →
      (parts.foldl .settle tables).Sound ∧
        (parts.foldl .settle tables).contents = tables.contents := by
    intro parts
    induction parts with
    | nil => exact fun tables sound => ⟨sound, rfl⟩
    | cons part rest ih =>
      intro tables sound
      have later := ih (tables.settle part) (sound.settle part)
      exact ⟨later.1, later.2.trans (Tables.contents_settle sound part)⟩
  have moved := chunks (ids.toChunks sqliteParamChunkSize) state.tables conserved.sound
  exact ⟨moved.1, moved.2, rfl, rfl⟩

theorem mem_upsertNode {node other : StoredNode} (member : other ∈ upsertNode nodes node) :
    other ∈ nodes ∨ other = node := by
  rcases mem_append.mp member with old | fresh
  · exact .inl (mem_filter.mp old).1
  · exact .inr (mem_singleton.mp fresh)

/-- An upsert keeps every id. -/
theorem upsertNode_id {node other : StoredNode} (member : other ∈ nodes) :
    ∃ kept ∈ upsertNode nodes node, kept.id = other.id := by
  by_cases same : other.id = node.id
  · exact ⟨node, mem_append_right _ mem_cons_self, same.symm⟩
  · refine ⟨other, mem_append_left _ (mem_filter.mpr ⟨member, ?_⟩), rfl⟩
    exact decide_eq_true same

/-- Nodes that are stored in turn are all kept, beside those that were there. -/
theorem foldl_upsertNode (added nodes : List StoredNode) :
    (∀ node ∈ added.foldl upsertNode nodes, node ∈ nodes ∨ node ∈ added) ∧
      (∀ node ∈ nodes, ∃ kept ∈ added.foldl upsertNode nodes, kept.id = node.id) ∧
      ∀ node ∈ added, ∃ kept ∈ added.foldl upsertNode nodes, kept.id = node.id := by
  induction added generalizing nodes with
  | nil => exact ⟨fun _ member => .inl member, fun node member => ⟨node, member, rfl⟩, fun _ none_ => by cases none_⟩
  | cons node rest ih =>
    obtain ⟨origin, older, later⟩ := ih (upsertNode nodes node)
    refine ⟨?_, ?_, ?_⟩
    · intro other member
      rcases origin other member with found | found
      · rcases mem_upsertNode found with old | rfl
        · exact .inl old
        · exact .inr mem_cons_self
      · exact .inr (mem_cons_of_mem _ found)
    · intro other member
      obtain ⟨kept, inside, same⟩ := upsertNode_id member
      obtain ⟨final, reached, equal⟩ := older kept inside
      exact ⟨final, reached, equal.trans same⟩
    · intro other member
      rcases mem_cons.mp member with rfl | rest_
      · exact older other (mem_append_right _ mem_cons_self)
      · exact later other rest_

theorem hasNode_iff {id : String} : state.hasNode id = true ↔ ∃ node ∈ state.nodes, node.id = id := by
  simp only [ReferenceStore.hasNode, any_eq_true, decide_eq_true_eq]

theorem hasNode_upsertNodes {id : String} (known : state.hasNode id = true ∨ id ∈ nodes.map StoredNode.id) :
    (upsertNodes nodes state).hasNode id = true := by
  obtain ⟨-, older, added⟩ := foldl_upsertNode nodes state.nodes
  apply hasNode_iff.mpr
  rcases known with known | known
  · obtain ⟨node, member, rfl⟩ := hasNode_iff.mp known
    exact older node member
  · obtain ⟨node, member, rfl⟩ := mem_map.mp known
    exact added node member

/-- Nodes placed in their own files may arrive at any time. -/
theorem Conserved.upsertNodes
    (conserved : Conserved json owner state) (homed : ∀ node ∈ nodes, node.filePath = owner node.id) :
    Conserved json owner (upsertNodes nodes state) := by
  refine ⟨conserved.sound, ?_, conserved.placed, conserved.written, ?_, conserved.balanced⟩
  · exact fun columns member => hasNode_upsertNodes (.inl (conserved.anchored columns member))
  · intro node member
    rcases (foldl_upsertNode nodes state.nodes).1 node member with old | added
    · exact conserved.homed node old
    · exact homed node added

/-- Inserting anchored references of their own files extends what was extracted of those files. -/
theorem Conserved.insert {state : ReferenceStore} {references : List UnresolvedRef}
    {extracted : String → Multiset RefColumns} (conserved : Conserved json owner state)
    (anchored : ∀ reference ∈ references, state.hasNode reference.fromNodeId = true)
    (placed : ∀ reference ∈ references, reference.filePath = owner reference.fromNodeId)
    (recorded : ∀ file, extracted file = state.extracted file +
      ((references.map (refColumns json)).filter (fun columns => columns.filePath = file) : List RefColumns)) :
    Conserved json owner { insertUnresolvedRefs json references state with extracted := extracted } := by
  rw [insertUnresolvedRefs_anchored anchored]
  have contents := Tables.contents_addAll state.tables (references.map (refColumns json))
  have cases_ : ∀ columns ∈ (state.tables.addAll (references.map (refColumns json))).contents,
      columns ∈ state.tables.contents ∨ ∃ reference ∈ references, refColumns json reference = columns := by
    intro columns member
    rw [contents, Multiset.mem_add] at member
    rcases member with old | added
    · exact .inl old
    · exact .inr (mem_map.mp added)
  refine ⟨conserved.sound.addAll _, ?_, ?_, ?_, conserved.homed, ?_⟩
  · intro columns member
    rcases cases_ columns member with old | ⟨reference, inside, rfl⟩
    · exact conserved.anchored columns old
    · exact anchored reference inside
  · intro columns member
    rcases cases_ columns member with old | ⟨reference, inside, rfl⟩
    · exact conserved.placed columns old
    · exact placed reference inside
  · intro columns member
    rcases cases_ columns member with old | ⟨reference, inside, rfl⟩
    · exact conserved.written columns old
    · exact ⟨reference, rfl⟩
  · intro file
    change (state.tables.addAll (references.map (refColumns json))).contents.filter _ = extracted file
    rw [contents, Multiset.filter_add, conserved.balanced file, recorded file, Multiset.filter_coe]

section

variable (conserved : Conserved json owner state)
include conserved

/-- Clearing a file's rows leaves the rows of every other file. -/
theorem Conserved.cleared (filePath : String) : Conserved json owner (deleteUnresolvedRefsByFile filePath state) := by
  have contents := Tables.contents_erase state.tables (fun columns => columns.filePath = filePath)
  have kept : ∀ columns ∈ (deleteUnresolvedRefsByFile filePath state).tables.contents,
      columns ∈ state.tables.contents := by
    intro columns member
    change columns ∈ (state.tables.erase _).contents at member
    rw [contents] at member
    exact (Multiset.mem_filter.mp member).1
  have sound : (deleteUnresolvedRefsByFile filePath state).tables.Sound :=
    conserved.sound.erase (fun columns => columns.filePath = filePath)
  refine ⟨sound, ?_, ?_, ?_, conserved.homed, ?_⟩
  · exact fun columns member => conserved.anchored columns (kept columns member)
  · exact fun columns member => conserved.placed columns (kept columns member)
  · exact fun columns member => conserved.written columns (kept columns member)
  · intro file
    change (state.tables.erase _).contents.filter _ = Function.update state.extracted filePath 0 file
    rw [contents, Multiset.filter_filter]
    by_cases same : file = filePath
    · subst same
      rw [Function.update_self]
      apply Multiset.filter_eq_nil.mpr
      rintro columns - ⟨inside, outside⟩
      exact absurd inside (decide_eq_false_iff_not.mp outside)
    · rw [Function.update_of_ne same, ← conserved.balanced file]
      apply Multiset.filter_congr
      intro columns _
      constructor
      · exact fun both => both.1
      · intro inside
        refine ⟨inside, decide_eq_false ?_⟩
        exact fun other => same (inside.symm.trans other)

/-- A file's cleared rows leave its nodes without references, so its record's cascade takes none. -/
theorem Conserved.deleteFileRecord (cleared : ∀ columns ∈ state.tables.contents, columns.filePath ≠ filePath) :
    Conserved json owner (deleteFileRecord filePath state) := by
  have spared : ∀ columns ∈ state.tables.contents,
      (state.nodes.filter (fun node => node.filePath = filePath)).any
        (fun node => node.id = columns.fromNodeId) = false := by
    intro columns member
    apply any_eq_false.mpr
    intro node gone
    obtain ⟨inside, here⟩ := mem_filter.mp gone
    intro same
    apply cleared columns member
    rw [conserved.placed columns member, ← of_decide_eq_true same, ← conserved.homed node inside]
    exact of_decide_eq_true here
  have contents : (Store.deleteFileRecord filePath state).tables.contents = state.tables.contents := by
    change (state.tables.erase _).contents = _
    rw [Tables.contents_erase]
    exact Multiset.filter_eq_self.mpr spared
  have sound : (Store.deleteFileRecord filePath state).tables.Sound := by
    simp only [Store.deleteFileRecord, ReferenceStore.eraseRefs]
    exact conserved.sound.erase _
  refine ⟨sound, ?_, ?_, ?_, ?_, ?_⟩
  · rw [contents]
    intro columns member
    obtain ⟨node, inside, same⟩ := hasNode_iff.mp (conserved.anchored columns member)
    refine hasNode_iff.mpr ⟨node, mem_filter.mpr ⟨inside, ?_⟩, same⟩
    apply decide_eq_true
    intro here
    apply cleared columns member
    rw [conserved.placed columns member, ← same, ← conserved.homed node inside, here]
  · rw [contents]
    exact conserved.placed
  · rw [contents]
    exact conserved.written
  · exact fun node member => conserved.homed node (mem_filter.mp member).1
  · rw [contents]
    exact conserved.balanced

theorem Conserved.prepared (batch : FileBatch owner) : Conserved json owner (Store.upsertNodes batch.nodes
      (Store.deleteFileRecord batch.file (deleteUnresolvedRefsByFile batch.file state))) := by
  have vacant : ∀ columns ∈ (deleteUnresolvedRefsByFile batch.file state).tables.contents,
      columns.filePath ≠ batch.file := by
    intro columns member
    change columns ∈ (state.tables.erase _).contents at member
    rw [Tables.contents_erase] at member
    exact of_decide_eq_false (Multiset.mem_filter.mp member).2
  exact ((conserved.cleared batch.file).deleteFileRecord vacant).upsertNodes batch.homed

/-- A committed extraction leaves its file with exactly the references it kept. -/
theorem Conserved.extract (batch : FileBatch owner) (committed : Bool) :
    Conserved json owner (reextractIntoStore json batch committed state) := by
  have prepared := conserved.prepared batch
  cases committed with
  | false => exact prepared
  | true =>
    simp only [reextractIntoStore, if_true]
    apply prepared.insert
    · intro reference member
      exact hasNode_upsertNodes (.inr (of_decide_eq_true (mem_filter.mp member).2))
    · exact fun reference member => batch.placed reference (mem_filter.mp member).1
    · intro file
      by_cases same : file = batch.file
      · subst same
        have all : (batch.kept.map (refColumns json)).filter (fun columns => columns.filePath = batch.file) =
            batch.kept.map (refColumns json) := by
          apply filter_eq_self.mpr
          intro columns member
          obtain ⟨reference, inside, rfl⟩ := mem_map.mp member
          exact decide_eq_true (batch.whole reference (mem_filter.mp inside).1)
        have none_ : (Store.upsertNodes batch.nodes (Store.deleteFileRecord batch.file
            (deleteUnresolvedRefsByFile batch.file state))).extracted batch.file = 0 :=
          Function.update_self _ _ _
        rw [Function.update_self, none_, all, Multiset.zero_add]
      · have none_ : (batch.kept.map (refColumns json)).filter (fun columns => columns.filePath = file) = [] := by
          apply filter_eq_nil_iff.mpr
          intro columns member here
          obtain ⟨reference, inside, rfl⟩ := mem_map.mp member
          apply same
          rw [← of_decide_eq_true here]
          exact batch.whole reference (mem_filter.mp inside).1
        rw [Function.update_of_ne same, none_, Multiset.coe_nil, Multiset.add_zero]

theorem Conserved.persist (batch : Batch owner) (committed : Bool) :
    Conserved json owner (persistFrameworks json batch committed state) := by
  have prepared := conserved.upsertNodes batch.homed
  cases committed with
  | false => exact prepared
  | true =>
    simp only [persistFrameworks, if_true]
    rw [insertUnresolvedRefs_filter]
    apply prepared.insert
    · exact fun reference member => (mem_filter.mp member).2
    · exact fun reference member => batch.placed reference (mem_filter.mp member).1
    · exact fun _ => rfl

end

/-- Every call, committed or rolled back, conserves the references. -/
theorem ReferenceOperation.conserved (operation : ReferenceOperation owner)
    (conserved : Conserved json owner state) : Conserved json owner (operation.exec json state) := by
  cases operation with
  | extract batch committed => exact conserved.extract batch committed
  | persist batch committed => exact conserved.persist batch committed
  | resolve ids committed =>
    cases committed with
    | false => exact conserved
    | true => exact conserved.requeued (deleteResolvedUnresolvedRefs_requeued conserved ids)
  | requeue targets committed =>
    cases committed with
    | false => exact conserved
    | true => exact conserved.requeued (refreshDependentRefs_requeued conserved targets)

theorem execAll_conserved (operations : List (ReferenceOperation owner))
    (conserved : Conserved json owner state) : Conserved json owner (execAll json operations state) := by
  induction operations generalizing state with
  | nil => exact conserved
  | cons operation rest ih => exact ih (operation.conserved conserved)

/-- After any run of extractions, resolutions, and requeues, no id stands in both tables, and the two tables
together hold each file's extracted references, each as often as it was extracted. -/
theorem references_conserved (json : CandidateText) (owner : String → String)
    (operations : List (ReferenceOperation owner)) :
    (∀ unresolved ∈ (execAll json operations ReferenceStore.empty).tables.pending,
      ∀ resolved ∈ (execAll json operations ReferenceStore.empty).tables.settled, unresolved.id ≠ resolved.id) ∧
    ∀ file, (execAll json operations ReferenceStore.empty).tables.contents.filter
        (fun columns => columns.filePath = file) =
      (execAll json operations ReferenceStore.empty).extracted file := by
  have conserved : Conserved json owner (execAll json operations .empty) :=
    execAll_conserved operations .empty
  exact ⟨conserved.sound.disjoint, conserved.balanced⟩

end Codegraph.Store
