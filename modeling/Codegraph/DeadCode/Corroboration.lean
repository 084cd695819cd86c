import Codegraph.DeadCode.Accounting
import Codegraph.Library.Rankings

/- This file compares the rows of a corroborated report with the texts of the files that can reach them. -/

namespace Codegraph.DeadCode
open Codegraph.Core Codegraph.Query Codegraph.Graph InsertionMaps Matches Rankings Rationing Sieves List
open Codegraph.Watch.Scope (Text)

section Searching

variable (unicode : Unicode) (reader : String → Option Text)

/-- The text of a file as a run knows it that has asked for the logged files. -/
def knownText (asked : List String) (file : String) : Option Text := answered reader maxCorroborationFiles asked file

/-- How often the scan finds a name in the text of a file. A file without a text adds nothing. -/
def scannedIn (text : String → Option Text) (name : Text) (file : String) : Nat :=
  ((text file).map fun source => (scannedMentions unicode source name).length).getD 0

def mentionsIn (text : String → Option Text) (name : Text) (file : String) : Nat :=
  ((text file).map fun source => (mentions unicode source name).length).getD 0

def passedIn (text : String → Option Text) (name : Text) (file : String) : Nat :=
  ((text file).map fun source => (passedMentions unicode source name).length).getD 0

/-- The log of a search for one name, which ends with the second mention. -/
def askedFor (name : Text) : List String → List String → Nat → List String
  | [], asked, _ => asked
  | file :: rest, asked, found =>
    let asked := asked ++ [file]
    let found := found + scannedIn unicode (knownText reader asked) name file
    if found ≥ 2 then asked else askedFor name rest asked found

/-- What the search for a node knows after one more file. -/
def MentionSearch.look (node : Node) (search : MentionSearch) (file : String) : MentionSearch :=
  let sources := search.sources.ask reader file
  { sources := sources
    ownReadable := if file = node.filePath then (sources.textOf file).isSome else search.ownReadable
    mentions := search.mentions + min (2 - search.mentions) (scannedIn unicode sources.textOf node.name.toList file) }

variable {unicode reader} {node : Node} {scope asked : List String} {file : String} {search : MentionSearch}

/-- A search goes on while it has not found a second mention. -/
theorem searchScope_cons (few : search.mentions < 2) : searchScope unicode reader node (file :: scope) search =
    if (search.look unicode reader node file).mentions ≥ 2 then search.look unicode reader node file
    else searchScope unicode reader node scope (search.look unicode reader node file) := by
  rw [searchScope]
  rcases text : (search.sources.ask reader file).textOf file with _ | source
  · have none_ : scannedIn unicode (search.sources.ask reader file).textOf node.name.toList file = 0 := by
      rw [scannedIn, text]
      rfl
    simp only [MentionSearch.look, text, none_, Nat.min_zero, Nat.add_zero, if_neg (Nat.not_le.mpr few)]
  · have found : scannedIn unicode (search.sources.ask reader file).textOf node.name.toList file =
        (scannedMentions unicode source node.name.toList).length := by
      rw [scannedIn, text]
      rfl
    simp only [MentionSearch.look, text, found, mentionCount_eq]

/-- Another file does not tell whether the declaring one is readable. -/
theorem searchScope_own (few : search.mentions < 2) (other : node.filePath ∉ scope) :
    (searchScope unicode reader node scope search).ownReadable = search.ownReadable := by
  induction scope generalizing search with
  | nil => rfl
  | cons file rest ih =>
    simp only [mem_cons, not_or] at other
    have kept : (search.look unicode reader node file).ownReadable = search.ownReadable := if_neg (Ne.symm other.1)
    rw [searchScope_cons few]
    split
    · exact kept
    · rename_i more
      exact (ih (by omega) other.2).trans kept

theorem askedFor_extends (name : Text) (scope asked : List String) (found : Nat) :
    ∃ more, askedFor unicode reader name scope asked found = asked ++ more := by
  induction scope generalizing asked found with
  | nil => exact ⟨[], (append_nil _).symm⟩
  | cons file rest ih =>
    simp only [askedFor]
    split
    · exact ⟨[file], rfl⟩
    · obtain ⟨more, same⟩ :=
        ih (asked ++ [file]) (found + scannedIn unicode (knownText reader (asked ++ [file])) name file)
      exact ⟨file :: more, by rw [same, append_assoc]; rfl⟩

/-- Later files do not change what a search found in an earlier one. -/
theorem scannedIn_append (earlier : file ∈ asked) (more : List String) (name : Text) :
    scannedIn unicode (knownText reader (asked ++ more)) name file =
      scannedIn unicode (knownText reader asked) name file := by
  rw [scannedIn, scannedIn, knownText, knownText, answered_append earlier]

/-- A search remembers what it asked for, and it ends with two mentions as soon as the texts of its files hold two. -/
theorem searchScope_spec (remembers : Remembers reader maxCorroborationFiles asked search.sources)
    (few : search.mentions < 2) (more : List String) :
    Remembers reader maxCorroborationFiles (askedFor unicode reader node.name.toList scope asked search.mentions)
        (searchScope unicode reader node scope search).sources ∧
      ((searchScope unicode reader node scope search).mentions ≥ 2 ↔ search.mentions + (scope.map (scannedIn unicode
        (knownText reader (askedFor unicode reader node.name.toList scope asked search.mentions ++ more))
          node.name.toList)).sum ≥ 2) := by
  induction scope generalizing asked search with
  | nil => exact ⟨remembers, by simp [searchScope]⟩
  | cons file rest ih =>
    have now : Remembers reader maxCorroborationFiles (asked ++ [file])
      (search.look unicode reader node file).sources :=
      remembers.ask file
    have found : (search.look unicode reader node file).mentions = search.mentions + min (2 - search.mentions)
        (scannedIn unicode (knownText reader (asked ++ [file])) node.name.toList file) := by
      simp only [MentionSearch.look, scannedIn]
      rw [show (search.sources.ask reader file).textOf file = knownText reader (asked ++ [file]) file from now.get_join]
    have listed : file ∈ asked ++ [file] := mem_append_right _ mem_cons_self
    rw [searchScope_cons few, askedFor, map_cons, sum_cons]
    by_cases done : search.mentions + scannedIn unicode (knownText reader (asked ++ [file])) node.name.toList file ≥ 2
    · rw [if_pos done, if_pos (by omega), scannedIn_append listed]
      exact ⟨now, by omega⟩
    · rw [if_neg done, if_neg (by omega)]
      have same : (search.look unicode reader node file).mentions =
          search.mentions + scannedIn unicode (knownText reader (asked ++ [file])) node.name.toList file := by omega
      obtain ⟨remembered, counted⟩ := ih now (by omega)
      obtain ⟨extra, grown⟩ : ∃ extra, askedFor unicode reader node.name.toList rest (asked ++ [file])
        (search.look unicode reader node file).mentions = asked ++ [file] ++ extra := askedFor_extends _ _ _ _
      rw [same] at remembered counted grown
      refine ⟨remembered, counted.trans ?_⟩
      rw [grown, append_assoc (asked ++ [file]), scannedIn_append listed, Nat.add_assoc]

end Searching

section Rows

variable (unicode : Unicode) (reader : String → Option Text) (index : DeadCodeIndex)

/-- The file that declares a node, and every file that the index lists as dependent on it. -/
def reachingFiles (node : Node) : List String := node.filePath :: index.dependentFilePaths node.filePath

/-- The declaring file is read, and the scan finds less than two mentions in the files that are read. -/
def uncontradicted (text : String → Option Text) (node : Node) : Bool :=
  (text node.filePath).isSome &&
    decide (((reachingFiles index node).map (scannedIn unicode text node.name.toList)).sum < 2)

/-- The log of the searches for all rows. -/
def askedForAll (rows : List Node) (asked : List String) : List String :=
  rows.foldl (fun asked node => askedFor unicode reader node.name.toList (scopeOf index node.filePath) asked 0) asked

variable {unicode reader index} {node : Node} {rows : List Node} {asked : List String} {sources : Sources}

theorem scopeOf_perm : (scopeOf index node.filePath).Perm (reachingFiles index node) :=
  (perm_insertionSort _ _).cons _

theorem askedForAll_extends (rows : List Node) (asked : List String) :
    ∃ more, askedForAll unicode reader index rows asked = asked ++ more := by
  induction rows generalizing asked with
  | nil => exact ⟨[], (append_nil _).symm⟩
  | cons node rest ih =>
    obtain ⟨first, same⟩ : ∃ first, askedFor unicode reader node.name.toList (scopeOf index node.filePath) asked 0 =
      asked ++ first := askedFor_extends _ _ _ _
    obtain ⟨later, all⟩ := ih (asked ++ first)
    exact ⟨first ++ later, by rw [askedForAll, foldl_cons, same, ← askedForAll, all, append_assoc]⟩

/-- The declaring file comes first, so the search knows whether it is readable. -/
theorem searchScope_readable (remembers : Remembers reader maxCorroborationFiles asked sources) (more : List String) :
    (searchScope unicode reader node (scopeOf index node.filePath) ⟨sources, false, 0⟩).ownReadable =
      (knownText reader (askedFor unicode reader node.name.toList (scopeOf index node.filePath) asked 0 ++ more)
        node.filePath).isSome := by
  have others : node.filePath ∉ (index.dependentFilePaths node.filePath).insertionSort
      (fun first second => (compare first second).isLE) := fun listed =>
    DeadCodeIndex.not_mem_dependentFilePaths ((mem_insertionSort _).mp listed)
  have now := remembers.ask node.filePath
  have own : (MentionSearch.look unicode reader node ⟨sources, false, 0⟩ node.filePath).ownReadable =
      (knownText reader (asked ++ [node.filePath]) node.filePath).isSome := by
    simp only [MentionSearch.look, if_true]
    rw [show (Sources.ask reader sources node.filePath).textOf node.filePath =
      knownText reader (asked ++ [node.filePath]) node.filePath from now.get_join]
  obtain ⟨extra, grown⟩ : ∃ extra, askedFor unicode reader node.name.toList (scopeOf index node.filePath) asked 0 =
      asked ++ [node.filePath] ++ extra := by
    rw [scopeOf, askedFor]
    split
    · exact ⟨[], (append_nil _).symm⟩
    · exact askedFor_extends _ _ _ _
  have listed : node.filePath ∈ asked ++ [node.filePath] := mem_append_right _ mem_cons_self
  rw [grown, append_assoc (asked ++ [node.filePath]), knownText, answered_append listed, ← knownText, ← own,
    scopeOf, searchScope_cons Nat.zero_lt_two]
  split
  · rfl
  · rename_i few
    exact searchScope_own (by omega) others

/-- One turn of the source pass keeps a row exactly when its texts do not contradict it. -/
theorem sourceRule_spec (remembers : Remembers reader maxCorroborationFiles asked sources) (more : List String) :
    Remembers reader maxCorroborationFiles
        (askedFor unicode reader node.name.toList (scopeOf index node.filePath) asked 0)
        (sourceRule unicode reader index sources node).1 ∧
      ((sourceRule unicode reader index sources node).2.isNone = uncontradicted unicode index (knownText reader
        (askedFor unicode reader node.name.toList (scopeOf index node.filePath) asked 0 ++ more)) node) := by
  obtain ⟨remembered, counted⟩ := @searchScope_spec unicode reader node (scopeOf index node.filePath) asked
    ⟨sources, false, 0⟩ remembers Nat.zero_lt_two more
  refine ⟨remembered, ?_⟩
  rw [Nat.zero_add, (scopeOf_perm.map _).sum_nat] at counted
  rw [sourceRule, uncontradicted, ← searchScope_readable remembers more]
  cases (searchScope unicode reader node (scopeOf index node.filePath) ⟨sources, false, 0⟩).ownReadable
  · simp only [Bool.not_false, if_true, Option.isNone_some, Bool.false_and]
  · by_cases many : (searchScope unicode reader node (scopeOf index node.filePath) ⟨sources, false, 0⟩).mentions ≥ 2
    · simp only [Bool.not_true, Bool.false_eq_true, if_false, if_pos many, Option.isNone_some,
        decide_eq_false (Nat.not_lt.mpr (counted.mp many)), Bool.and_false]
    · simp only [Bool.not_true, Bool.false_eq_true, if_false, if_neg many, Option.isNone_none,
        decide_eq_true (Nat.not_le.mp fun total => many (counted.mpr total)), Bool.and_true]

/-- The source pass keeps the rows that the texts it has read do not contradict. -/
theorem sourceRun_spec (sieve : Sieve Sources DeadCodeExclusions Node)
    (remembers : Remembers reader maxCorroborationFiles asked sieve.state) (more : List String) :
    Remembers reader maxCorroborationFiles (askedForAll unicode reader index rows asked)
        (sieve.run (sourceRule unicode reader index) DeadCodeExclusions.count rows).state ∧
      (sieve.run (sourceRule unicode reader index) DeadCodeExclusions.count rows).kept = sieve.kept ++
        rows.filter (uncontradicted unicode index
          (knownText reader (askedForAll unicode reader index rows asked ++ more))) := by
  induction rows generalizing asked sieve with
  | nil => exact ⟨remembers, (append_nil _).symm⟩
  | cons node rest ih =>
    obtain ⟨later, grown⟩ : ∃ later, askedForAll unicode reader index (node :: rest) asked =
      askedFor unicode reader node.name.toList (scopeOf index node.filePath) asked 0 ++ later :=
        askedForAll_extends rest _
    obtain ⟨remembered, verdict⟩ :=
      @sourceRule_spec unicode reader index node asked sieve.state remembers (later ++ more)
    rw [← append_assoc, ← grown] at verdict
    rw [Sieve.run, foldl_cons, ← Sieve.run]
    have next : Remembers reader maxCorroborationFiles
        (askedFor unicode reader node.name.toList (scopeOf index node.filePath) asked 0)
        (sieve.turn (sourceRule unicode reader index) .count node).state := by
      rw [Sieve.turn_state]
      exact remembered
    obtain ⟨final, kept⟩ := ih _ next
    have log : askedForAll unicode reader index rest
        (askedFor unicode reader node.name.toList (scopeOf index node.filePath) asked 0) =
          askedForAll unicode reader index (node :: rest) asked := rfl
    rw [log] at final kept
    refine ⟨final, kept.trans ?_⟩
    rw [Sieve.turn_kept, verdict, append_assoc, filter_cons]
    split <;> rfl

end Rows

section Ranking

variable (unicode : Unicode)

/-- The order of two entries, which the nodes at their heads decide. -/
def headCmp (first second : Node) : Ordering := entryCmp unicode (entryOf first) (entryOf second)

/-- A node has a place among so many entries when fewer others rank before its own entry, or before its container's. -/
def Placed (containers : Containers) (rows : List Node) (places : Nat) (row : Node) : Prop :=
  ∃ head ∈ headNodes containers (rows.map Node.id) rows,
    (row = head ∨ foldsInto containers (rows.map Node.id) row = some head.id) ∧
      (headNodes containers (rows.map Node.id) rows).countP (fun other =>
        RanksBefore (headCmp unicode) (headNodes containers (rows.map Node.id) rows) other head) < places

def DeadCodeReport.rows (report : DeadCodeReport) : List Node :=
  report.entries.flatMap fun entry => entry.node :: entry.members

instance : Std.TransCmp weightCmp :=
  have := transCmp_map (Prod.fst : Nat × Nat → Nat) compare
  have := transCmp_map (Prod.snd : Nat × Nat → Nat) compare
  transCmp_then _ _

instance : Std.TransCmp (localeCompare unicode) :=
  have := transCmp_map (fun text : String => text.toList.map (primaryWeight unicode)) (List.compareLex weightCmp)
  have := transCmp_map (fun text : String => text.toList.map unicode.isUppercase) (List.compareLex compare)
  have := transCmp_then (fun first second : String =>
    List.compareLex compare (first.toList.map unicode.isUppercase) (second.toList.map unicode.isUppercase)) compare
  transCmp_then _ _

/-- The bigger entry comes first, and then the path and the line decide. -/
instance : Std.TransCmp (headCmp unicode) :=
  have : Std.TransCmp fun first second : Node => compare (entryOf second).lines (entryOf first).lines :=
    (transCmp_map (fun node : Node => (entryOf node).lines) compare).opposite
  have := transCmp_map (fun node : Node => (entryOf node).node.filePath) (localeCompare unicode)
  have := transCmp_map (fun node : Node => (entryOf node).node.startLine) compare
  have := transCmp_then
    (fun first second : Node => localeCompare unicode (entryOf first).node.filePath (entryOf second).node.filePath)
    fun first second => compare (entryOf first).node.startLine (entryOf second).node.startLine
  transCmp_then _ _

variable {unicode} {containers : Containers} {rows : List Node} {places : Nat} {row : Node}

/-- The nodes of the first ranked entries are those that have a place. -/
theorem mem_ranked_iff {excluded : DeadCodeExclusions} {fold : MemberFold}
    (folded : Folded containers (rows.map Node.id) excluded rows fold) (distinct : (rows.map Node.id).Nodup) :
    (row ∈ ((fold.rank unicode).take places).flatMap fun entry => entry.node :: entry.members) ↔
      row ∈ rows ∧ Placed unicode containers rows places row := by
  have ranked : fold.rank unicode = ((headNodes containers (rows.map Node.id) rows).insertionSort fun first second =>
      (headCmp unicode first second).isLE).map fun head => (foldedEntry fold.pending head).sortMembers unicode := by
    rw [folded.rank_eq, eq_comm]
    exact map_insertionSort _ _ _ _ fun _ _ _ _ => .rfl
  have own (head : Node) : ((foldedEntry fold.pending head).sortMembers unicode).node = head := rfl
  have members (head : Node) : row ∈ ((foldedEntry fold.pending head).sortMembers unicode).members ↔
      row ∈ rows ∧ foldsInto containers (rows.map Node.id) row = some head.id := by
    show row ∈ insertionSort _ ((fold.pending.filter fun member => member.2 = head.id).map Prod.fst) ↔ _
    rw [mem_insertionSort, folded.pending, memberships]
    simp only [mem_map, mem_filter, mem_filterMap, Option.map_eq_some_iff, decide_eq_true_eq]
    constructor
    · rintro ⟨_, ⟨⟨node, listed, container, into, rfl⟩, same⟩, rfl⟩
      exact ⟨listed, into.trans (congrArg some same)⟩
    · rintro ⟨listed, into⟩
      exact ⟨(row, head.id), ⟨⟨row, listed, head.id, into, rfl⟩, rfl⟩, rfl⟩
  have heads : (headNodes containers (rows.map Node.id) rows).Nodup := (filter_sublist.nodup distinct.of_map)
  simp only [ranked, ← map_take, flatMap_map, mem_flatMap, mem_cons, own, members]
  constructor
  · rintro ⟨head, chosen, inside⟩
    have listed : head ∈ headNodes containers (rows.map Node.id) rows :=
      (mem_insertionSort _).mp (mem_of_mem_take chosen)
    have few := (mem_take_insertionSort heads listed places).mp chosen
    rcases inside with rfl | ⟨member, into⟩
    · exact ⟨mem_of_mem_filter listed, row, listed, .inl rfl, few⟩
    · exact ⟨member, head, listed, .inr into, few⟩
  · rintro ⟨member, head, listed, inside, few⟩
    exact ⟨head, (mem_take_insertionSort heads listed places).mpr few, inside.imp_right fun into => ⟨member, into⟩⟩

end Ranking

section Report

variable (unicode : Unicode) (index : DeadCodeIndex) (query : DeadCodeQuery) (reader : String → Option Text)

/-- Every file that can reach a row is read, and together the texts mention its name at most once. -/
structure Corroborated (text : String → Option Text) (row : Node) : Prop where
  read : ∀ file ∈ reachingFiles index row, (text file).isSome = true
  few : ((reachingFiles index row).map (mentionsIn unicode text row.name.toList)).sum ≤ 1

/-- Every file that depends on the one of a row is read, and no mention that the scan passes over makes a second one. -/
structure DependentsRead (text : String → Option Text) (row : Node) : Prop where
  read : ∀ file ∈ index.dependentFilePaths row.filePath, (text file).isSome = true
  few : ((reachingFiles index row).map (scannedIn unicode text row.name.toList)).sum +
    ((reachingFiles index row).map (passedIn unicode text row.name.toList)).sum ≤ 1

/-- The candidates that no rule drops, in their order. -/
def undroppedRows : List Node :=
  (((candidates index query).filter fun row => (rowRule unicode index query row).isNone).map Prod.fst).filter
    fun node =>
    (fileRule unicode index query node).isNone && (graphRule (graphFacts unicode index query) node).isNone

/-- A file has a text when the reader gives it and it is among the first files that the searches for the rows ask for.
-/
def readText (file : String) : Option Text :=
  knownText reader (askedForAll unicode reader index (undroppedRows unicode index query) []) file

/-- The rows that no rule drops and that the texts read do not contradict. -/
def plausibleRows : List Node :=
  (undroppedRows unicode index query).filter (uncontradicted unicode index (readText unicode index query reader))

variable {unicode index query reader} {row : Node} {text : String → Option Text}

theorem sum_mentionsIn (name : Text) (files : List String) : (files.map (mentionsIn unicode text name)).sum =
    (files.map (scannedIn unicode text name)).sum + (files.map (passedIn unicode text name)).sum := by
  induction files with
  | nil => rfl
  | cons file rest ih =>
    have here : mentionsIn unicode text name file = scannedIn unicode text name file +
      passedIn unicode text name file := by
      rw [mentionsIn, scannedIn, passedIn]
      rcases text file with _ | source
      · rfl
      · exact mentions_length
    rw [map_cons, map_cons, map_cons, sum_cons, sum_cons, sum_cons, here, ih]
    omega

theorem corroborated_iff (own : (text row.filePath).isSome = true) :
    Corroborated unicode index text row ↔ DependentsRead unicode index text row := by
  constructor
  · intro known
    exact ⟨fun file listed => known.read file (mem_cons_of_mem _ listed), sum_mentionsIn _ _ ▸ known.few⟩
  · intro known
    refine ⟨fun file listed => ?_, (sum_mentionsIn _ _).trans_le known.few⟩
    rcases mem_cons.mp listed with rfl | dependent
    · exact own
    · exact known.read file dependent

theorem graphPass_kept : (graphPass unicode index query).kept = undroppedRows unicode index query := by
  rw [graphPass, screen_kept, filePass, screen_kept, surviving, rowPass, screen_kept, filter_filter, undroppedRows]
  exact filter_congr fun node _ => Bool.and_comm _ _

/-- The pass over the sources reads what the cap lets it read and keeps the plausible rows. -/
theorem sourcePass_spec (given : query.readSource = some reader) :
    (sourcePass unicode index query).state.textOf = readText unicode index query reader ∧
      (sourcePass unicode index query).kept = plausibleRows unicode index query reader := by
  obtain ⟨remembered, kept⟩ := @sourceRun_spec unicode reader index (graphPass unicode index query).kept []
    ⟨.empty, (graphPass unicode index query).tally, []⟩ remembers_empty []
  rw [append_nil, nil_append] at kept
  have pass : sourcePass unicode index query = .run (sourceRule unicode reader index) .count
      (graphPass unicode index query).kept ⟨.empty, (graphPass unicode index query).tally, []⟩ := by
    rw [sourcePass, given]
  rw [graphPass_kept] at remembered kept pass
  rw [pass]
  exact ⟨funext fun file => remembered.get_join, kept⟩

/-- A report shows the plausible rows that have a place. -/
theorem mem_rows_iff (given : query.readSource = some reader) : row ∈ (buildDeadCodeReport unicode index query).rows ↔
    row ∈ plausibleRows unicode index query reader ∧ Placed unicode (containers unicode index query)
      (plausibleRows unicode index query reader) (max query.limit 1) row := by
  have folded := @memberFold_folded unicode index query
  have distinct := confirmed_nodup unicode index query
  rw [(sourcePass_spec given).2] at folded distinct
  exact mem_ranked_iff folded distinct

theorem plausible_readable (passes : row ∈ plausibleRows unicode index query reader) :
    (readText unicode index query reader row.filePath).isSome = true := by
  have kept := (mem_filter.mp passes).2
  rw [uncontradicted, Bool.and_eq_true] at kept
  exact kept.1

end Report

/-- A corroborated report is right about its rows exactly when, for every plausible row that has a place among the
entries, the files that depend on its file are read and no mention is passed over that makes a second one. -/
theorem corroborated_rows_iff (unicode : Unicode) (index : DeadCodeIndex) (query : DeadCodeQuery) :
    ((buildDeadCodeReport unicode index query).corroborated = true →
        ∀ row ∈ (buildDeadCodeReport unicode index query).rows,
          Corroborated unicode index (sourcePass unicode index query).state.textOf row) ↔
      ∀ reader, query.readSource = some reader → ∀ row ∈ plausibleRows unicode index query reader,
        Placed unicode (containers unicode index query) (plausibleRows unicode index query reader)
        (max query.limit 1) row →
          DependentsRead unicode index (readText unicode index query reader) row := by
  constructor
  · intro right reader given row passes placed
    have checked := right (by rw [buildDeadCodeReport, given]; rfl) row ((mem_rows_iff given).mpr ⟨passes, placed⟩)
    rw [(sourcePass_spec given).1] at checked
    exact (corroborated_iff (plausible_readable passes)).mp checked
  · intro read given row listed
    obtain ⟨reader, given⟩ := Option.isSome_iff_exists.mp given
    obtain ⟨passes, placed⟩ := (mem_rows_iff given).mp listed
    rw [(sourcePass_spec given).1]
    exact (corroborated_iff (plausible_readable passes)).mpr (read reader given row passes placed)

/-- A function that one file declares. -/
def orphan : Node := { bareNode "f" .function with filePath := "a" }

/-- Another file refers to the file of the orphan. -/
def unreadIndex : DeadCodeIndex where
  tables := .inTableOrder
    [orphan, { bareNode "g" .function with filePath := "a" }, { bareNode "h" .constant with filePath := "b" }]
    [bareEdge "h" "g" .references] (by decide)
  unresolvedRefs := []
  generatedFiles := []

/-- The other file cannot be read. -/
def unreadReader (file : String) : Option Text := if file = "a" then some ['f'] else none

def unreadQuery : DeadCodeQuery where
  kinds := some [.function]
  includeExported := true
  includeTests := true
  includeGenerated := true
  limit := 200
  readSource := some unreadReader

theorem scannedMentions_orphan : scannedMentions .ascii ['f'] ['f'] = [0] := by
  have first : find ['f'] (['f'].drop 0) = some 0 := by decide
  have last : find ['f'] (['f'].drop (0 + 0 + ['f'].length)) = none := by decide
  have given : ['f'] ≠ [] := by decide
  rw [scannedMentions_of_given given, matchesFrom_some first, matchesFrom_none last]
  decide

/-- The search for the orphan asks for both files, and it finds the declaration alone. -/
theorem plausibleRows_unread : plausibleRows .ascii unreadIndex unreadQuery unreadReader = [orphan] := by
  have kept : undroppedRows .ascii unreadIndex unreadQuery = [orphan] := by decide
  have dependents : unreadIndex.dependentFilePaths orphan.filePath = ["b"] := by decide
  have scope : scopeOf unreadIndex orphan.filePath = ["a", "b"] := by decide
  have own : knownText unreadReader ["a"] "a" = some ['f'] := by decide
  have scanned (log : List String) (first : knownText unreadReader log "a" = some ['f']) :
      scannedIn .ascii (knownText unreadReader log) orphan.name.toList "a" = 1 := by
    rw [scannedIn, first]
    exact congrArg length scannedMentions_orphan
  have other : scannedIn .ascii (knownText unreadReader ["a", "b"]) orphan.name.toList "b" = 0 := by decide
  have asked : askedForAll .ascii unreadReader unreadIndex [orphan] [] = ["a", "b"] := by
    rw [askedForAll, foldl_cons, foldl_nil, scope]
    simp [askedFor, scanned ["a"] own, other]
  rw [plausibleRows, kept, filter_cons_of_pos, filter_nil]
  rw [uncontradicted, reachingFiles, dependents]
  have both : knownText unreadReader ["a", "b"] "a" = some ['f'] := by decide
  have text : readText .ascii unreadIndex unreadQuery unreadReader = knownText unreadReader ["a", "b"] := by
    funext file
    rw [readText, kept, asked]
  rw [text]
  show ((knownText unreadReader ["a", "b"] "a").isSome && decide (([("a" : String), "b"].map
    (scannedIn .ascii (knownText unreadReader ["a", "b"]) orphan.name.toList)).sum < 2)) = true
  simp [both, scanned _ both, other]

/-- The report shows the orphan although a file that depends on its file was never read. -/
theorem unread_dependent_reported : ¬ ((buildDeadCodeReport .ascii unreadIndex unreadQuery).corroborated = true →
      ∀ row ∈ (buildDeadCodeReport .ascii unreadIndex unreadQuery).rows,
        Corroborated .ascii unreadIndex (sourcePass .ascii unreadIndex unreadQuery).state.textOf row) := by
  intro right
  have shown : orphan ∈ (buildDeadCodeReport .ascii unreadIndex unreadQuery).rows := by
    rw [mem_rows_iff rfl, plausibleRows_unread]
    exact ⟨mem_cons_self, orphan, by decide, .inl rfl, by decide⟩
  have unread := (right rfl orphan shown).read "b" (by decide)
  rw [(sourcePass_spec rfl).1] at unread
  have missing : readText .ascii unreadIndex unreadQuery unreadReader "b" = none := by
    rw [readText, knownText, answered]
    split <;> rfl
  rw [missing] at unread
  cases unread
end Codegraph.DeadCode
