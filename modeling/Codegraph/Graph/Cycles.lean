import Codegraph.Graph.Tables
import Codegraph.Library.FinishOrder
import Mathlib.Data.List.Dedup

/- This file proves that the search for circular file dependencies finds a cycle whenever there is one. -/

namespace Codegraph.Graph
open FinishOrder List

/-- The listed files, and the finitely many files that each depends on, in no promised order. -/
structure FileDependencies where
  allFiles : List String
  dependencyFilePaths : String → List String
  known : List String
  finite : ∀ filePath, ∀ dependency ∈ dependencyFilePaths filePath, dependency ∈ known

/-- The search remembers the visited files, the files that are being expanded, and the cycles. -/
structure CycleSearch where
  visited : List String
  recursionStack : List String
  cycles : List (List String)

/-- A file that is being expanded closes a cycle, and a fresh file is expanded with itself on the path. -/
def cycleDfs (index : FileDependencies) : Nat → String → List String → CycleSearch → Option CycleSearch
  | 0, _, _, _ => none
  | fuel + 1, filePath, path, search =>
    if filePath ∈ search.recursionStack then
      match path.findIdx? fun other => other = filePath with
      | some cycleStart => some { search with cycles := search.cycles ++ [path.drop cycleStart] }
      | none => some search
    else if filePath ∈ search.visited then some search
    else do
      let after ← (index.dependencyFilePaths filePath).foldlM
        (fun search dependency => cycleDfs index fuel dependency (path ++ [filePath]) search)
        { search with
          visited := filePath :: search.visited
          recursionStack := filePath :: search.recursionStack }
      return { after with recursionStack := after.recursionStack.filter fun other => other ≠ filePath }

def findCircularDependencies (index : FileDependencies) (fuel : Nat) : Option (List (List String)) := do
  let search ← index.allFiles.mergeSort.foldlM
    (fun search filePath => if filePath ∈ search.visited then some search else cycleDfs index fuel filePath [] search)
    ⟨[], [], []⟩
  return search.cycles

section Search

variable (index : FileDependencies)

def FileDependencies.DependsOn (filePath dependency : String) : Prop :=
  dependency ∈ index.dependencyFilePaths filePath

/-- A file is reachable when a listed file leads to it along dependencies. -/
def FileDependencies.Reachable (filePath : String) : Prop :=
  ∃ first ∈ index.allFiles, Relation.ReflTransGen index.DependsOn first filePath

def FileDependencies.universe : List String := index.allFiles ++ index.known

/-- The search follows a path of dependencies, and as long as it found no cycle it has finished the other visited
files in an order in which every file comes after its dependencies. -/
structure CycleSearch.Along (path : List String) (search : CycleSearch) : Prop where
  stack : ∀ filePath, filePath ∈ search.recursionStack ↔ filePath ∈ path
  entered : ∀ filePath ∈ path, filePath ∈ search.visited
  reached : ∀ filePath ∈ search.visited, index.Reachable filePath
  simple : ∀ cycle ∈ search.cycles, SimpleCycle index.DependsOn cycle ∧ ∀ filePath ∈ cycle, index.Reachable filePath
  finished : search.cycles = [] → ∃ order, Ordered index.DependsOn order ∧ order.Nodup ∧
    ∀ filePath, filePath ∈ order ↔ filePath ∈ search.visited ∧ filePath ∉ path

/-- A part of the search forgets neither a visited file nor that it found a cycle. -/
structure CycleSearch.Grows (before after : CycleSearch) : Prop where
  visited : ∀ filePath ∈ before.visited, filePath ∈ after.visited
  cycles : after.cycles = [] → before.cycles = []

/-- The files that the search can still visit. -/
def CycleSearch.room (search : CycleSearch) : Nat := (index.universe.filter fun file => file ∉ search.visited).length

variable {index} {path : List String} {search before after : CycleSearch} {filePath : String}

theorem CycleSearch.Grows.refl (search : CycleSearch) : search.Grows search :=
  ⟨fun _ member => member, fun none => none⟩

theorem CycleSearch.Grows.trans {middle : CycleSearch} (first : before.Grows middle) (second : middle.Grows after) :
    before.Grows after :=
  ⟨fun file member => second.visited file (first.visited file member), fun none => first.cycles (second.cycles none)⟩

theorem CycleSearch.Grows.room_le (grows : before.Grows after) : after.room index ≤ before.room index := by
  apply List.Sublist.length_le
  apply monotone_filter_right
  intro file fresh
  simp only [decide_eq_true_eq] at fresh ⊢
  exact fun seen => fresh (grows.visited file seen)

theorem CycleSearch.room_visit (stack : List String) (cycles : List (List String)) (listed : filePath ∈ index.universe)
    (fresh : filePath ∉ search.visited) :
    CycleSearch.room index ⟨filePath :: search.visited, stack, cycles⟩ < search.room index := by
  have fewer : (index.universe.filter fun file => file ∉ filePath :: search.visited) =
      (index.universe.filter fun file => file ∉ search.visited).filter fun file => file ≠ filePath := by
    rw [filter_filter]
    apply filter_congr
    intro file _
    simp [mem_cons]
  unfold CycleSearch.room
  rw [fewer]
  apply length_filter_lt_length_iff_exists.mpr
  exact ⟨filePath, mem_filter.mpr ⟨listed, by simpa using fresh⟩, by simp⟩

/-- A file that is being expanded closes a simple cycle with the end of the path. -/
theorem CycleSearch.Along.close (along : search.Along index path) (distinct : path.Nodup)
    (chained : path.IsChain index.DependsOn)
    (arrives : ∀ last, path.getLast? = some last → index.DependsOn last filePath)
    (onStack : filePath ∈ search.recursionStack) :
    ∃ cycleStart, (path.findIdx? fun other => other = filePath) = some cycleStart ∧
      CycleSearch.Along index path { search with cycles := search.cycles ++ [path.drop cycleStart] } := by
  have member : filePath ∈ path := (along.stack filePath).mp onStack
  obtain ⟨cycleStart, found⟩ : ∃ cycleStart, (path.findIdx? fun other => other = filePath) = some cycleStart := by
    apply Option.isSome_iff_exists.mp
    rw [findIdx?_isSome, any_eq_true]
    exact ⟨filePath, member, by simp⟩
  refine ⟨cycleStart, found, along.stack, along.entered, along.reached, ?_, ?_⟩
  · intro cycle listed
    rcases mem_append.mp listed with old | new
    · exact along.simple cycle old
    · rw [mem_singleton.mp new]
      refine ⟨?_, fun file inside => along.reached file (along.entered file (mem_of_mem_drop inside))⟩
      obtain ⟨within, holds, -⟩ := findIdx?_eq_some_iff_getElem.mp found
      have place : path[cycleStart]? = some filePath := by
        rw [getElem?_eq_getElem within]
        simpa using holds
      obtain ⟨last, ends⟩ : ∃ last, path.getLast? = some last := by
        rcases path with _ | ⟨head, rest⟩
        · cases member
        · exact ⟨_, getLast?_cons⟩
      exact .of_drop distinct chained ends place (arrives last ends)
  · intro none
    simp at none

/-- Entering a fresh file puts it at the end of the path. -/
theorem CycleSearch.Along.enter (along : search.Along index path) (fresh : filePath ∉ search.visited)
    (reachable : index.Reachable filePath) : CycleSearch.Along index (path ++ [filePath])
      { search with
        visited := filePath :: search.visited
        recursionStack := filePath :: search.recursionStack } := by
  refine ⟨?_, ?_, ?_, along.simple, ?_⟩
  · intro other
    simp [along.stack, or_comm]
  · intro other member
    rcases mem_append.mp member with old | new
    · exact mem_cons_of_mem _ (along.entered other old)
    · exact mem_singleton.mp new ▸ mem_cons_self
  · intro other member
    rcases mem_cons.mp member with rfl | old
    · exact reachable
    · exact along.reached other old
  · intro none
    obtain ⟨order, ordered, unique, holds⟩ := along.finished none
    refine ⟨order, ordered, unique, fun other => ?_⟩
    rw [holds, mem_cons, mem_append, mem_singleton]
    constructor
    · intro ⟨seen, off⟩
      refine ⟨.inr seen, ?_⟩
      rintro (on | rfl)
      · exact off on
      · exact fresh seen
    · rintro ⟨rfl | seen, off⟩
      · exact absurd (.inr rfl) off
      · exact ⟨seen, fun on => off (.inl on)⟩

/-- Leaving a file whose dependencies are all finished finishes it after them. -/
theorem CycleSearch.Along.leave (along : search.Along index (path ++ [filePath])) (off : filePath ∉ path)
    (done : search.cycles = [] → ∀ dependency ∈ index.dependencyFilePaths filePath,
      dependency ∈ search.visited ∧ dependency ∉ path ++ [filePath]) : CycleSearch.Along index path
      { search with recursionStack := search.recursionStack.filter fun other => other ≠ filePath } := by
  refine ⟨?_, fun other member => along.entered other (mem_append_left _ member), along.reached, along.simple, ?_⟩
  · intro other
    simp only [mem_filter, along.stack, mem_append, mem_singleton, decide_eq_true_eq]
    constructor
    · rintro ⟨on | same, different⟩
      · exact on
      · exact absurd same different
    · intro on
      exact ⟨.inl on, fun same => off (same ▸ on)⟩
  · intro none
    obtain ⟨order, ordered, unique, holds⟩ := along.finished none
    refine ⟨filePath :: order,
      ⟨fun dependency depends => (holds dependency).mpr (done none dependency depends), ordered⟩,
      nodup_cons.mpr ⟨?_, unique⟩, fun other => ?_⟩
    · intro finished
      exact ((holds filePath).mp finished).2 (by simp)
    · rw [mem_cons, holds, mem_append, mem_singleton]
      constructor
      · rintro (rfl | ⟨seen, away⟩)
        · exact ⟨along.entered other (by simp), off⟩
        · exact ⟨seen, fun on => away (.inl on)⟩
      · intro ⟨seen, away⟩
        by_cases same : other = filePath
        · exact .inl same
        · exact .inr ⟨seen, fun on => on.elim away same⟩

/-- A call of the search ends, keeps its path, and finishes its file unless some cycle was found. -/
def CycleSearch.Visits (index : FileDependencies) (path : List String) (filePath : String)
    (before after : CycleSearch) :
    Prop :=
  after.Along index path ∧ before.Grows after ∧
    (after.cycles = [] → filePath ∈ after.visited ∧ filePath ∉ path)

/-- A loop over files visits each of them. -/
theorem CycleSearch.visits_foldlM (visit : CycleSearch → String → Option CycleSearch) (limit : Nat)
    (files : List String) (each : ∀ search, ∀ file ∈ files, search.Along index path → search.room index ≤ limit →
      ∃ after, visit search file = some after ∧ CycleSearch.Visits index path file search after)
    (along : search.Along index path) (within : search.room index ≤ limit) :
    ∃ after, files.foldlM visit search = some after ∧ after.Along index path ∧ search.Grows after ∧
      (after.cycles = [] → ∀ file ∈ files, file ∈ after.visited ∧ file ∉ path) := by
  induction files generalizing search with
  | nil => exact ⟨search, rfl, along, .refl search, fun _ file member => absurd member not_mem_nil⟩
  | cons file rest ih =>
    obtain ⟨middle, ran, kept, grows, visited⟩ := each search file mem_cons_self along within
    obtain ⟨after, finished, final, further, others⟩ :=
      ih (fun search other member => each search other (mem_cons_of_mem _ member)) kept
        (grows.room_le.trans within)
    refine ⟨after, ?_, final, grows.trans further, ?_⟩
    · rw [foldlM_cons, ran]
      exact finished
    · intro none other member
      rcases mem_cons.mp member with rfl | later
      · obtain ⟨seen, off⟩ := visited (further.cycles none)
        exact ⟨further.visited _ seen, off⟩
      · exact others none other later

/-- With enough fuel the search comes back with its file visited and all that the file depends on. -/
theorem cycleDfs_visits (index : FileDependencies) (fuel : Nat) (filePath : String) (path : List String)
    (search : CycleSearch) (along : search.Along index path) (distinct : path.Nodup)
    (chained : path.IsChain index.DependsOn)
    (arrives : ∀ last, path.getLast? = some last → index.DependsOn last filePath)
    (reachable : index.Reachable filePath) (listed : filePath ∈ index.universe) (enough : search.room index < fuel) :
    ∃ after, cycleDfs index fuel filePath path search = some after ∧
      CycleSearch.Visits index path filePath search after := by
  induction fuel generalizing filePath path search with
  | zero => exact absurd enough (Nat.not_lt_zero _)
  | succ fuel ih =>
    rw [cycleDfs]
    by_cases onStack : filePath ∈ search.recursionStack
    · obtain ⟨cycleStart, found, closed⟩ := along.close distinct chained arrives onStack
      rw [if_pos onStack, found]
      refine ⟨_, rfl, closed, ⟨fun _ member => member, ?_⟩, ?_⟩
      · intro none
        simp at none
      · intro none
        simp at none
    rw [if_neg onStack]
    have off : filePath ∉ path := fun on => onStack ((along.stack filePath).mpr on)
    by_cases seen : filePath ∈ search.visited
    · rw [if_pos seen]
      exact ⟨search, rfl, along, .refl search, fun _ => ⟨seen, off⟩⟩
    rw [if_neg seen]
    have room := CycleSearch.room_visit (filePath :: search.recursionStack) search.cycles listed seen
    have extended : (path ++ [filePath]).IsChain index.DependsOn := by
      refine isChain_append.mpr ⟨chained, isChain_singleton _, ?_⟩
      intro last ends first head
      simp only [head?_cons, Option.mem_def, Option.some.injEq] at head
      exact head ▸ arrives last ends
    obtain ⟨after, ran, kept, grows, done⟩ := CycleSearch.visits_foldlM
      (fun search dependency => cycleDfs index fuel dependency (path ++ [filePath]) search) (search.room index - 1)
      (index.dependencyFilePaths filePath)
      (by
        intro search dependency depends along within
        refine ih dependency (path ++ [filePath]) search along ?_ extended ?_ ?_ ?_ (by omega)
        · exact nodup_append.mpr ⟨distinct, nodup_singleton _, by
            intro other on same member equal
            exact off (mem_singleton.mp member ▸ equal ▸ on)⟩
        · intro last ends
          rw [getLast?_concat, Option.some.injEq] at ends
          exact ends ▸ depends
        · obtain ⟨first, indexed, leads⟩ := reachable
          exact ⟨first, indexed, leads.tail depends⟩
        · exact mem_append_right _ (index.finite filePath dependency depends))
      (along.enter seen reachable) (by omega)
    refine ⟨_, by rw [ran]; rfl, kept.leave off done, ?_, ?_⟩
    · exact ⟨fun other member => grows.visited other (mem_cons_of_mem _ member), grows.cycles⟩
    · exact fun _ => ⟨grows.visited filePath mem_cons_self, off⟩

end Search

/-- Every reported cycle is a simple cycle of dependencies, and one is reported exactly when the files reachable from
the listed ones contain a cycle. -/
theorem circular_dependencies_found (index : FileDependencies) (spare : Nat) :
    ∃ cycles, findCircularDependencies index (index.universe.length + 1 + spare) = some cycles ∧
      (∀ cycle ∈ cycles, SimpleCycle index.DependsOn cycle) ∧
      (cycles ≠ [] ↔ ∃ file, index.Reachable file ∧ Relation.TransGen index.DependsOn file file) := by
  have start : CycleSearch.Along index [] ⟨[], [], []⟩ := by
    refine ⟨by simp, by simp, by simp, by simp, fun _ => ⟨[], trivial, nodup_nil, by simp⟩⟩
  obtain ⟨after, ran, kept, -, done⟩ := CycleSearch.visits_foldlM
    (fun search filePath => if filePath ∈ search.visited then some search
      else cycleDfs index (index.universe.length + 1 + spare) filePath [] search)
    index.universe.length index.allFiles.mergeSort
    (by
      intro search filePath member along within
      have indexed : filePath ∈ index.allFiles := mem_mergeSort.mp member
      by_cases seen : filePath ∈ search.visited
      · rw [if_pos seen]
        exact ⟨search, rfl, along, .refl search, fun _ => ⟨seen, not_mem_nil⟩⟩
      · rw [if_neg seen]
        exact cycleDfs_visits index _ filePath [] search along nodup_nil isChain_nil
          (fun last ends => by cases ends) ⟨filePath, indexed, .refl⟩ (mem_append_left _ indexed) (by omega))
    start (length_filter_le _ _)
  refine ⟨after.cycles, by
    rw [findCircularDependencies, ran]; rfl, fun cycle member => (kept.simple cycle member).1, ?_⟩
  constructor
  · intro some
    obtain ⟨cycle, member⟩ := exists_mem_of_ne_nil _ some
    obtain ⟨simple, reachable⟩ := kept.simple cycle member
    obtain ⟨file, inside, returns⟩ := simple.returns
    exact ⟨file, reachable file inside, returns⟩
  · intro ⟨file, ⟨first, indexed, leads⟩, returns⟩ none
    -- Without a cycle every reachable file is finished, and finished files lie on no cycle.
    obtain ⟨order, ordered, unique, holds⟩ := kept.finished none
    have listed := (holds first).mpr (done none first (mem_mergeSort.mpr indexed))
    exact ordered.acyclic unique (ordered.closed listed leads) returns

end Codegraph.Graph
