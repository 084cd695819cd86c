import Codegraph.GitPending.Record

/- This file shows on which runs the answer from git is the answer of the full inventory. -/

namespace Codegraph.GitPending
open List

section Admission
variable (rules : Rules) (world : World)

/-- The scan enters every directory above the path and keeps the file. -/
def admitsFrom (scope : String) (themed : Bool) : ProjectPath → List String → Bool
  | _, [] => false
  | above, [name] => rules.keeps scope (above ++ [name]) themed
  | above, name :: next :: rest =>
    rules.enters scope (above ++ [name]) && admitsFrom scope themed (above ++ [name]) (next :: rest)

def Rules.admits (scope : String) (themed : Bool) (path : ProjectPath) : Bool :=
  decide ("." ∉ path ∧ ".." ∉ path) && admitsFrom rules scope themed [] path

variable {rules world}

/-- Above a stored entry there is only a directory. -/
theorem above_isDirectory {above : ProjectPath} {rest : List String} {entry : Entry}
    (stored : world.entry (above ++ rest) = some entry) (proper : rest ≠ []) :
    world.entry above = none ∧ world.isDirectory above = true := by
  have listed : above ++ rest ∈ world.disk.keys := Finmap.mem_keys.mpr (Finmap.mem_of_lookup_eq_some stored)
  have differs : above ≠ above ++ rest := by simpa using proper.symm
  constructor
  · apply Finmap.lookup_eq_none.mpr
    intro present
    have prefixed : above ∈ (above ++ rest).inits := by simp [mem_inits]
    exact differs (world.nestless _ listed above prefixed (Finmap.mem_keys.mpr present))
  · exact decide_eq_true ⟨above ++ rest, listed, prefix_append above rest, differs⟩

/-- A file is admitted when the scope enters every directory above it and keeps it. -/
theorem membershipFrom_file {above : ProjectPath} {rest : List String} {version : Version} (proper : rest ≠ [])
    (stored : world.entry (above ++ rest) = some (.file version)) : membershipFrom rules world false above rest =
      if admitsFrom rules world.scope (isShopifyLiquidJson (above ++ rest) world.present) above rest then .admitted
      else .rejected := by
  induction rest generalizing above with
  | nil => exact absurd rfl proper
  | cons name rest ih =>
    cases rest with
    | nil =>
      rw [membershipFrom]
      simp only [stored, admitsFrom]
      by_cases kept : rules.keeps world.scope (above ++ [name])
        (isShopifyLiquidJson (above ++ [name]) world.present) = true
      · simp [kept]
      · simp [kept]
    | cons next more =>
      rw [append_cons] at stored
      obtain ⟨none, directory⟩ := above_isDirectory stored (by simp)
      have later := ih (by simp) stored
      rw [membershipFrom]
      simp only [none, directory]
      rw [later, append_cons above name (next :: more)]
      cases enters : rules.enters world.scope (above ++ [name]) <;> simp [admitsFrom, enters]

/-- A path that is admitted below a directory is a file. -/
theorem membershipFrom_admitted {above : ProjectPath} {rest : List String} (proper : rest ≠ [])
    (admitted : membershipFrom rules world false above rest = .admitted) :
    ∃ version, world.entry (above ++ rest) = some (.file version) := by
  induction rest generalizing above with
  | nil => exact absurd rfl proper
  | cons name rest ih =>
    rw [membershipFrom] at admitted
    simp only at admitted
    split at admitted
    · cases admitted
    · next version stored =>
        by_cases last : rest = []
        · rw [last]
          exact ⟨version, stored⟩
        · simp [last] at admitted
    · by_cases last : rest = []
      · simp [last] at admitted
      · split at admitted
        · obtain ⟨version, stored⟩ := ih last admitted
          exact ⟨version, by simpa using stored⟩
        · cases admitted

/-- The scan descends into every directory above an admitted file. -/
theorem membershipFrom_directory {above directory : ProjectPath} {rest : List String} {themed : Bool} {entry : Entry}
    (proper : rest ≠ []) (stored : world.entry (above ++ directory ++ rest) = some entry)
    (admits : admitsFrom rules world.scope themed above (directory ++ rest) = true) :
    membershipFrom rules world true above directory = .admitted := by
  induction directory generalizing above with
  | nil => rfl
  | cons name directory ih =>
    have below : directory ++ rest ≠ [] := by simp [proper]
    obtain ⟨next, more, same⟩ := exists_cons_of_ne_nil below
    have located : world.entry ((above ++ [name]) ++ (directory ++ rest)) = some entry := by
      simpa using stored
    obtain ⟨none, present⟩ := above_isDirectory located below
    rw [cons_append, same, admitsFrom, Bool.and_eq_true, ← same] at admits
    rw [membershipFrom]
    simp only [none, present, admits.1]
    exact ih (by simpa using stored) admits.2

theorem scanMembership_file {path : ProjectPath} {version : Version}
    (stored : world.entry path = some (.file version)) : scanMembership rules world path false =
      if rules.admits world.scope (isShopifyLiquidJson path world.present) path then .admitted else .rejected := by
  unfold scanMembership Rules.admits
  by_cases root : path = []
  · rw [root]
    simp [admitsFrom]
  · by_cases dots : "." ∈ path ∨ ".." ∈ path
    · rw [if_pos (Or.inr dots), if_neg]
      simp only [Bool.and_eq_true, decide_eq_true_eq, not_and_or, not_not]
      exact Or.inl dots
    · rw [if_neg (not_or.mpr ⟨root, dots⟩)]
      have file := @membershipFrom_file rules world [] path version root stored
      rw [file]
      simp [not_or.mp dots]

theorem scanMembership_admitted {path : ProjectPath} (admitted : scanMembership rules world path false = .admitted) :
    ∃ version, world.entry path = some (.file version) := by
  unfold scanMembership at admitted
  split at admitted
  next => cases admitted
  next plain => exact @membershipFrom_admitted rules world [] path (fun root => plain (.inl root)) admitted

theorem scanMembership_directory {directory : ProjectPath} {rest : List String} {themed : Bool} {entry : Entry}
    (below : rest ≠ []) (inside : directory ≠ []) (stored : world.entry (directory ++ rest) = some entry)
    (admits : rules.admits world.scope themed (directory ++ rest) = true) :
    scanMembership rules world directory true = .admitted := by
  simp only [Rules.admits, Bool.and_eq_true, decide_eq_true_eq, mem_append, not_or] at admits
  obtain ⟨⟨dot, dots⟩, admits⟩ := admits
  unfold scanMembership
  rw [if_neg (by simp [inside, dot.1, dots.1])]
  exact @membershipFrom_directory rules world [] directory rest themed entry below stored admits

/-- Where no link leads to a file, the scan yields the admitted paths. -/
theorem mem_scanProject {path : ProjectPath} (plain : linkedFiles rules world = ∅) :
    path ∈ scanProject rules world ↔ scanMembership rules world path false = .admitted := by
  rw [scanProject, plain, Finset.union_empty, Finset.mem_filter]
  constructor
  · exact fun listed => listed.2
  · intro admitted
    obtain ⟨version, stored⟩ := scanMembership_admitted admitted
    exact ⟨Finmap.mem_keys.mpr (Finmap.mem_of_lookup_eq_some stored), admitted⟩

end Admission

section Markers
variable {world : World} {path : ProjectPath}

/-- A file is theme JSON by the markers of the directories that hold a theme folder above it. -/
theorem themed_congr {first second : ProjectPath → Bool}
    (same : ∀ index, index + 1 < path.length → (path[index]?).any isShopifyJsonFolder = true →
      isContained path = true → ∀ marker ∈ shopifyThemeMarkers,
        first (path.take index ++ [marker.1, marker.2]) = second (path.take index ++ [marker.1, marker.2])) :
    isShopifyLiquidJson path first = isShopifyLiquidJson path second := by
  unfold isShopifyLiquidJson shopifyThemeRoot
  by_cases contained : isContained path = true
  · rw [if_pos contained, if_pos contained]
    congr 1
    rw [Bool.eq_iff_iff, findSome?_isSome_iff, findSome?_isSome_iff]
    apply exists_congr
    intro index
    apply and_congr_right
    intro listed
    have inside : index + 1 < path.length := by
      have bound := mem_range.mp (mem_reverse.mp listed)
      omega
    by_cases folder : (path[index]?).any isShopifyJsonFolder = true
    · have themes : isShopifyTheme (path.take index) first = isShopifyTheme (path.take index) second := by
        unfold isShopifyTheme
        congr 1
        rw [Bool.eq_iff_iff, any_eq_true, any_eq_true]
        apply exists_congr
        intro marker
        apply and_congr_right
        intro known
        rw [same index inside folder contained marker known]
      rw [themes]
    · simp [folder]
  · rw [if_neg contained, if_neg contained]

/-- A path that ends in a marker names the theme in front of it. -/
theorem markerTheme_take {index : Nat} {marker : String × String} (contained : isContained path = true)
    (known : marker ∈ shopifyThemeMarkers) :
    shopifyMarkerTheme (path.take index ++ [marker.1, marker.2]) = some (path.take index) := by
  have named : isContained (path.take index ++ [marker.1, marker.2]) = true := by
    simp only [isContained, Bool.and_eq_true, all_eq_true] at contained
    simp only [isContained, Bool.and_eq_true, all_eq_true, mem_append]
    constructor
    · simp
    · rintro segment (above | below)
      · exact contained.2 segment (mem_of_mem_take above)
      · simp only [shopifyThemeMarkers, mem_cons, not_mem_nil, or_false] at known below
        rcases known with rfl | rfl <;> rcases below with rfl | rfl <;> decide
  have itself : shopifyThemeMarkers.any (fun known => eqIgnoreAsciiCase marker.1 known.1 &&
      eqIgnoreAsciiCase marker.2 known.2) = true :=
    any_eq_true.mpr ⟨marker, known, by simp [eqIgnoreAsciiCase]⟩
  unfold shopifyMarkerTheme
  rw [reverse_append]
  simp [named, itself]

theorem hasJsonFolder_take {index : Nat} (inside : index + 1 < path.length) (listed : path ∈ world.disk.keys)
    (folder : (path[index]?).any isShopifyJsonFolder = true) : hasJsonFolder world (path.take index) = true := by
  apply decide_eq_true
  refine ⟨path, listed, take_prefix index path, ?_, ?_⟩
  · rw [length_take]
    omega
  · rw [length_take, min_eq_left (by omega)]
    exact folder

theorem marker_is_marker {index : Nat} {marker : String × String} (contained : isContained path = true)
    (known : marker ∈ shopifyThemeMarkers) : isShopifyThemeMarker (path.take index ++ [marker.1, marker.2]) = true := by
  rw [isShopifyThemeMarker, markerTheme_take contained known]
  rfl

/-- An ignored marker of a theme with JSON, or its ignored folder, is reported as hiding one. -/
theorem marker_hidden {index : Nat} {marker : String × String} (contained : isContained path = true)
    (known : marker ∈ shopifyThemeMarkers) (json : hasJsonFolder world (path.take index) = true) :
    mayHideAMarker world (path.take index ++ [marker.1, marker.2]) false = true ∧
      mayHideAMarker world (path.take index ++ [marker.1]) true = true := by
  constructor
  · simp [mayHideAMarker, markerTheme_take contained known, json]
  · have folder : isShopifyMarkerFolder marker.1 = true :=
      any_eq_true.mpr ⟨marker, known, by simp [eqIgnoreAsciiCase]⟩
    simp [mayHideAMarker, folder, json]

end Markers

section Answers
variable {rules : Rules} {trees : String → Tree} {world : World} {store : Store} {record : Record} {head : String}
  {path : ProjectPath} {version : Version}

/-- What holds when git answers for the index. -/
structure Answered (rules : Rules) (trees : String → Tree) (world : World) (store : Store) (record : Record)
    (head : String) : Prop where
  kept : store.record = some record
  links : record.links = false
  scope : record.scope = world.scope
  sees : gitSees rules world record = true
  markers : ∀ path ∈ candidates trees world record head, isShopifyThemeMarker path = false
  known : ∀ path ∈ candidates trees world record head, scanMembership rules world path false ≠ .unknown

/-- An answer of the fast path is the classification of its candidates. -/
theorem gitFastPending_some {fast : PendingChanges} (answer : gitFastPending rules trees world store = some fast) :
    ∃ record head, Answered rules trees world store record head ∧
      fast = classified rules world store (candidates trees world record head) := by
  unfold gitFastPending at answer
  split at answer
  next => cases answer
  next record kept =>
    split at answer
    next => cases answer
    next valid =>
      split at answer
      next => cases answer
      next head _ =>
        split at answer
        next => cases answer
        next sees =>
          simp only at answer
          split at answer
          next => cases answer
          next markers =>
            split at answer
            next => cases answer
            next known =>
              simp only [not_or, Bool.not_eq_true, not_not, not_exists, not_and] at valid markers known
              refine ⟨record, head, ⟨kept, valid.2.1, valid.2.2.2, ?_, markers.1, ?_⟩, (Option.some.inj answer).symm⟩
              · exact Bool.eq_true_of_not_eq_false sees
              · exact fun path chosen => (known path chosen).2.2

/-- A path that is no candidate holds what the recorded commit holds, unless git ignores it. -/
theorem Answered.clean (answered : Answered rules trees world store record head)
    (outside : path ∉ candidates trees world record head) : world.object path = (trees record.commit).at path ∨
      (trees record.commit).at path = none ∧ world.ignores path = true := by
  simp only [candidates, statusPaths, committedPaths, Finset.mem_union, Finset.mem_filter, not_or, not_and] at outside
  obtain ⟨⟨⟨status, _⟩, committed⟩, _⟩ := outside
  have sees := answered.sees
  simp only [gitSees, conversionRisk, indexFlags, Bool.and_eq_true, Bool.not_eq_true', Bool.or_eq_false_iff,
    decide_eq_false_iff_not, Finset.not_nonempty_iff_eq_empty] at sees
  obtain ⟨⟨⟨⟨⟨_, _⟩, hidden⟩, _, converted⟩, nested⟩, _⟩ := sees
  have same : (trees record.commit).at path = (trees head).at path := by
    by_contra differs
    by_cases old : path ∈ (trees record.commit).keys
    · exact committed (.inl old) differs
    · by_cases new : path ∈ (trees head).keys
      · exact committed (.inr new) differs
      · have oldNone : (trees record.commit).at path = none :=
          Finmap.lookup_eq_none.mpr fun present => old (Finmap.mem_keys.mpr present)
        have newNone : (trees head).at path = none :=
          Finmap.lookup_eq_none.mpr fun present => new (Finmap.mem_keys.mpr present)
        exact differs (oldNone.trans newNone.symm)
  rw [same]
  by_contra differs
  obtain ⟨differs, seen⟩ := not_or.mp differs
  have listed : path ∈ world.disk.keys ∨ path ∈ (trees head).keys := by
    by_contra nowhere
    obtain ⟨disk, tree⟩ := not_or.mp nowhere
    have diskNone : world.entry path = none :=
      Finmap.lookup_eq_none.mpr fun present => disk (Finmap.mem_keys.mpr present)
    have treeNone : (trees head).at path = none :=
      Finmap.lookup_eq_none.mpr fun present => tree (Finmap.mem_keys.mpr present)
    exact differs (by rw [World.object, diskNone, treeNone]; rfl)
  have reported : world.unreported trees head path = false := by
    simp only [World.unreported, hidden, converted, nested, Finset.notMem_empty, and_false, exists_false, decide_false,
      Bool.false_or, Bool.or_false, Bool.and_eq_false_iff, decide_eq_false_iff_not]
    by_cases untracked : (trees head).at path = none
    · exact .inr (Bool.eq_false_of_not_eq_true fun ignored => seen ⟨untracked, ignored⟩)
    · exact .inl untracked
  exact status listed differs reported

/-- Nothing that git ignores is kept by the scan or marks a theme. -/
theorem Answered.ignored (answered : Answered rules trees world store record head) :
    (∀ path ∈ world.ignoredFiles, mayHideAMarker world path false = false ∧
      scanMembership rules world path false = .rejected) ∧
    ∀ path ∈ world.ignoredDirectories, mayHideAMarker world path true = false ∧
      scanMembership rules world path true = .rejected := by
  have sees := answered.sees
  simp only [gitSees, Bool.and_eq_true, Bool.not_eq_true'] at sees
  have scanned := sees.2
  simp only [ignoresScannedPath, Bool.or_eq_false_iff, decide_eq_false_iff_not, not_exists, not_and, not_or,
    Bool.not_eq_true, not_not] at scanned
  exact ⟨fun path listed => (scanned.1 path listed).2, fun path listed => scanned.2 path listed⟩

theorem present_eq_isSome (world : World) (path : ProjectPath) : world.present path = (world.object path).isSome := by
  rw [World.present, World.object, Option.isSome_map, Bool.eq_iff_iff, decide_eq_true_eq, Finmap.mem_keys,
    ← Finmap.lookup_isSome]
  rfl

/-- The markers that the recorded commit holds make the file theme JSON. -/
def themedIn (tree : Tree) (path : ProjectPath) : Bool := isShopifyLiquidJson path fun marker => (tree.at marker).isSome

/-- A path below an ignored directory is not admitted. -/
theorem Answered.unignored_above (answered : Answered rules trees world store record head)
    {above : ProjectPath} {themed : Bool} (rooted : [] ∉ world.ignoredDirectories)
    (stored : world.entry path = some (.file version)) (prefixed : above <+: path) (proper : above ≠ path)
    (ignored : above ∈ world.ignoredDirectories) : rules.admits world.scope themed path = false := by
  by_contra admitted
  have admits : rules.admits world.scope themed path = true := Bool.eq_true_of_not_eq_false admitted
  obtain ⟨rest, same⟩ := prefixed
  have below : rest ≠ [] := by
    intro none
    rw [none, append_nil] at same
    exact proper same
  have inside : above ≠ [] := fun root => rooted (root ▸ ignored)
  rw [← same] at stored admits
  have descended := scanMembership_directory below inside stored admits
  rw [(answered.ignored.2 above ignored).2] at descended
  cases descended

/-- The markers on disk admit a stored file exactly when those of the recorded commit do. -/
theorem Answered.admits_eq (answered : Answered rules trees world store record head)
    (rooted : [] ∉ world.ignoredDirectories) (stored : world.entry path = some (.file version)) :
    rules.admits world.scope (isShopifyLiquidJson path world.present) path =
      rules.admits world.scope (themedIn (trees record.commit) path) path := by
  by_cases deep : ∃ above, above <+: path ∧ above ≠ path ∧ above ∈ world.ignoredDirectories
  · obtain ⟨above, prefixed, proper, ignored⟩ := deep
    rw [answered.unignored_above rooted stored prefixed proper ignored,
      answered.unignored_above rooted stored prefixed proper ignored]
  · have listed : path ∈ world.disk.keys := Finmap.mem_keys.mpr (Finmap.mem_of_lookup_eq_some stored)
    congr 1
    apply themed_congr
    intro index inside folder contained marker known
    have outside : path.take index ++ [marker.1, marker.2] ∉ candidates trees world record head := by
      intro chosen
      have marked := answered.markers _ chosen
      rw [marker_is_marker contained known] at marked
      cases marked
    rw [present_eq_isSome]
    rcases answered.clean outside with same | ⟨untracked, ignores⟩
    · rw [same]
    · exfalso
      obtain ⟨asFile, asFolder⟩ := marker_hidden contained known (hasJsonFolder_take inside listed folder)
      simp only [World.ignores, Bool.or_eq_true, decide_eq_true_eq] at ignores
      rcases ignores with file | ⟨above, prefixed, proper, directory⟩
      · rw [(answered.ignored.1 _ file).1] at asFile
        cases asFile
      · have named : above <+: path.take index ++ [marker.1] := by
          rw [mem_inits, append_cons, prefix_concat_iff] at prefixed
          rcases prefixed with whole | shorter
          · exact absurd (whole.trans (append_cons _ _ _).symm) proper
          · exact shorter
        rcases prefix_concat_iff.mp named with whole | shorter
        · rw [← whole, (answered.ignored.2 above directory).1] at asFolder
          cases asFolder
        · apply deep
          refine ⟨above, shorter.trans ( take_prefix index path), ?_, directory⟩
          intro same
          have bound := shorter.length_le
          rw [same, length_take] at bound
          omega

/-- Outside the dirty paths the rows are those of the recorded commit. -/
def Faithful (rules : Rules) (trees : String → Tree) (record : Record) (store : Store) : Prop :=
  record.links = false → (∀ path ∈ record.dirty, isShopifyThemeMarker path = false) → ∀ path ∉ record.dirty,
    (∀ file, store.fileByPath path = some file → ∃ content, (trees record.commit).at path = some (.blob content) ∧
      rules.sourceHash record.scope path content = some file.contentHash ∧
      rules.admits record.scope (themedIn (trees record.commit) path) path = true) ∧
    (store.fileByPath path = none → ∀ content, (trees record.commit).at path = some (.blob content) →
      rules.admits record.scope (themedIn (trees record.commit) path) path = false)

theorem object_blob {content : String} (blob : world.object path = some (.blob content)) :
    ∃ version, world.entry path = some (.file version) ∧ version.content = content := by
  obtain ⟨entry, stored, same⟩ := Option.map_eq_some_iff.mp blob
  cases entry with
  | file version => exact ⟨version, stored, GitObject.blob.inj same⟩
  | link target => cases same

theorem versionAt_file (stored : world.entry path = some (.file version)) : world.versionAt path = some version := by
  rw [World.versionAt, stored]

/-- A path that is no candidate is neither new nor changed. -/
theorem Answered.settled (answered : Answered rules trees world store record head)
    (rooted : [] ∉ world.ignoredDirectories)
    (faithful : Faithful rules trees record store) (outside : path ∉ candidates trees world record head) :
    (∀ file, store.fileByPath path = some file → scanMembership rules world path false = .admitted ∧
      hashNow rules world path = some file.contentHash) ∧
    (store.fileByPath path = none → scanMembership rules world path false ≠ .admitted) := by
  have clean : path ∉ record.dirty := fun dirty => outside (Finset.mem_union_right _ dirty)
  have markers : ∀ path ∈ record.dirty, isShopifyThemeMarker path = false := fun path dirty =>
    answered.markers path (Finset.mem_union_right _ dirty)
  obtain ⟨stored, missing⟩ := faithful answered.links markers path clean
  constructor
  · intro file row
    obtain ⟨content, blob, hash, admits⟩ := stored file row
    have here : world.object path = some (.blob content) := by
      rcases answered.clean outside with same | ⟨none, _⟩
      · exact same.trans blob
      · rw [none] at blob
        cases blob
    obtain ⟨version, entry, same⟩ := object_blob here
    constructor
    · rw [scanMembership_file entry, answered.admits_eq rooted entry, ← answered.scope, admits]
      rfl
    · rw [hashNow, versionAt_file entry, ← answered.scope, Option.bind_some, same]
      exact hash
  · intro row admitted
    obtain ⟨version, entry⟩ := scanMembership_admitted admitted
    have admits : rules.admits world.scope (themedIn (trees record.commit) path) path = true := by
      rw [scanMembership_file entry, answered.admits_eq rooted entry] at admitted
      by_contra denied
      rw [if_neg denied] at admitted
      cases admitted
    have here : world.object path = some (.blob version.content) := by
      rw [World.object, entry]
      rfl
    rcases answered.clean outside with same | ⟨_, ignores⟩
    · have denied := missing row version.content (same ▸ here)
      rw [answered.scope, admits] at denied
      cases denied
    · simp only [World.ignores, Bool.or_eq_true, decide_eq_true_eq] at ignores
      rcases ignores with file | ⟨above, prefixed, proper, directory⟩
      · rw [(answered.ignored.1 path file).2] at admitted
        cases admitted
      · rw [answered.unignored_above rooted entry (mem_inits above path |>.mp prefixed) proper directory] at admits
        cases admits

/-- The answer from git is that of the full inventory when the rows outside the dirty paths are the recorded commit's.
-/
theorem Answered.agrees (answered : Answered rules trees world store record head)
    (rooted : [] ∉ world.ignoredDirectories)
    (plain : linkedFiles rules world = ∅) (faithful : Faithful rules trees record store) :
    classified rules world store (candidates trees world record head) = fullInventory rules world store := by
  have scanned (path : ProjectPath) := @mem_scanProject rules world path plain
  have rehash (path : ProjectPath) (admitted : scanMembership rules world path false = .admitted) :
      rehashes rules world path = false := by
    rw [rehashes, admitted]
    simp
  unfold classified fullInventory
  congr 1
  · ext path
    simp only [Finset.mem_filter, scanned]
    by_cases chosen : path ∈ candidates trees world record head
    · simp only [chosen, true_and]
      tauto
    · have settled := (answered.settled rooted faithful chosen).2
      simp only [chosen, false_and, false_iff, not_and]
      intro admitted row
      exact absurd admitted (settled row)
  · ext path
    simp only [Finset.mem_filter, scanned]
    by_cases admitted : scanMembership rules world path false = .admitted
    · cases row : store.fileByPath path with
      | none => simp
      | some file =>
        by_cases chosen : path ∈ candidates trees world record head
        · simp [chosen, admitted, StoredFile.differs, rehash path admitted]
        · simp [chosen, ((answered.settled rooted faithful chosen).1 file row).2]
    · simp [admitted]
  · ext path
    have stored : path ∈ store.files.keys ↔ store.fileByPath path ≠ none := by
      rw [Finmap.mem_keys, ← Finmap.lookup_isSome, Option.isSome_iff_ne_none]
      rfl
    simp only [Finset.mem_filter, Finset.mem_union, scanned, stored]
    by_cases chosen : path ∈ candidates trees world record head
    · by_cases admitted : scanMembership rules world path false = .admitted
      · cases row : store.fileByPath path with
        | none => simp
        | some file => simp [chosen, admitted, StoredFile.differs, rehash path admitted]
      · simp [chosen, admitted]
    · cases row : store.fileByPath path with
      | none => simp [chosen]
      | some file =>
        obtain ⟨admitted, hash⟩ := (answered.settled rooted faithful chosen).1 file row
        simp [chosen, admitted, hash]

end Answers

end Codegraph.GitPending
