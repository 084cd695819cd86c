import Codegraph.DeadCode.Report
import Mathlib.Data.List.Pairwise

/- This file accounts for every candidate of the dead code report. -/

namespace Codegraph.DeadCode
open Codegraph.Core Codegraph.Graph InsertionMaps Occurrences Sieves List

section Folding

/-- The dead container that a member is folded into. -/
def foldsInto (containers : Containers) (keptIds : List String) (node : Node) : Option String :=
  ((containers.lookup node.id).map Node.id).filter keptIds.contains

/-- The nodes that have an entry of their own. -/
def headNodes (containers : Containers) (keptIds : List String) (nodes : List Node) : List Node :=
  nodes.filter fun node => (foldsInto containers keptIds node).isNone

/-- The members with the container that each is folded into. -/
def memberships (containers : Containers) (keptIds : List String) (nodes : List Node) : List (Node × String) :=
  nodes.filterMap fun node => (foldsInto containers keptIds node).map fun container => (node, container)

variable {containers : Containers} {keptIds : List String} {excluded : DeadCodeExclusions} {nodes : List Node}
  {fold : MemberFold} {node : Node}

theorem place_eq : fold.place containers keptIds node =
    match foldsInto containers keptIds node with
    | some container =>
      { fold with pending := fold.pending ++ [(node, container)], excluded := fold.excluded.count .nested }
    | none => fold.enter node := by
  rw [MemberFold.place, foldsInto]
  rcases containers.lookup node.id with _ | container
  · rfl
  · by_cases kept : keptIds.contains container.id = true
    · simp only [Option.map_some, Option.filter_some, kept, if_true]
    · simp only [Option.map_some, Option.filter_some, kept]
      rfl

/-- What the nodes so far have left in the fold. -/
structure Folded (containers : Containers) (keptIds : List String) (excluded : DeadCodeExclusions) (nodes : List Node)
    (fold : MemberFold) : Prop where
  order : fold.order = (headNodes containers keptIds nodes).map Node.id
  entries : ∀ node ∈ headNodes containers keptIds nodes, fold.entries.get node.id = some (entryOf node)
  pending : fold.pending = memberships containers keptIds nodes
  total : fold.excluded.total = excluded.total + fold.pending.length
  nested : fold.excluded.nested = excluded.nested + fold.pending.length

/-- A node of a new id is folded or kept, and counted once. -/
theorem Folded.place (folded : Folded containers keptIds excluded nodes fold) (fresh : node.id ∉ nodes.map Node.id) :
    Folded containers keptIds excluded (nodes ++ [node]) (fold.place containers keptIds node) := by
  rw [place_eq]
  rcases into : foldsInto containers keptIds node with _ | container
  · have heads : headNodes containers keptIds (nodes ++ [node]) = headNodes containers keptIds nodes ++ [node] := by
      simp [headNodes, into]
    have members : memberships containers keptIds (nodes ++ [node]) = memberships containers keptIds nodes := by
      simp [memberships, into]
    refine ⟨?_, ?_, members ▸ folded.pending, folded.total, folded.nested⟩
    · rw [heads, map_append, ← folded.order]
      rfl
    · intro other member
      rw [heads] at member
      rcases mem_append.mp member with old | new
      · have apart : other.id ≠ node.id := fun same =>
          fresh (same ▸ mem_map_of_mem (mem_of_mem_filter old))
        exact (InsertionMap.get_insert_ne apart).trans (folded.entries other old)
      · rw [mem_singleton.mp new]
        exact InsertionMap.get_insert_self
  · have heads : headNodes containers keptIds (nodes ++ [node]) = headNodes containers keptIds nodes := by
      simp [headNodes, into]
    have members : memberships containers keptIds (nodes ++ [node]) =
        memberships containers keptIds nodes ++ [(node, container)] := by
      simp [memberships, into]
    refine ⟨heads ▸ folded.order, heads ▸ folded.entries, ?_, ?_, ?_⟩
    · rw [members, ← folded.pending]
    · rw [DeadCodeExclusions.total_count, folded.total, length_append, length_singleton, Nat.add_assoc]
    · show fold.excluded.nested + 1 = _
      rw [folded.nested, length_append, length_singleton, Nat.add_assoc]

theorem foldMembers_folded (distinct : (nodes.map Node.id).Nodup) : Folded containers keptIds excluded nodes
      (nodes.foldl (MemberFold.place containers keptIds) ⟨[], .empty, [], excluded⟩) := by
  induction nodes using reverseRecOn with
  | nil =>
    exact ⟨rfl, fun _ member => (not_mem_nil member).elim, rfl, (Nat.add_zero _).symm, (Nat.add_zero _).symm⟩
  | append_singleton nodes node ih =>
    rw [map_append] at distinct
    obtain ⟨earlier, _, apart⟩ := nodup_append.mp distinct
    rw [foldl_append]
    exact (ih earlier).place fun known => apart _ known _ (mem_singleton.mpr rfl) rfl

/-- Every node is a head or a member, and not both. -/
theorem heads_members_perm (containers : Containers) (keptIds : List String) (nodes : List Node) :
    (headNodes containers keptIds nodes ++ (memberships containers keptIds nodes).map Prod.fst).Perm nodes := by
  have members : (memberships containers keptIds nodes).map Prod.fst =
      nodes.filter fun node => !(foldsInto containers keptIds node).isNone := by
    induction nodes with
    | nil => rfl
    | cons node rest ih =>
      rw [memberships] at ih ⊢
      rcases into : foldsInto containers keptIds node with _ | container
      · simp [into, ih]
      · simp [into, ih]
  rw [members]
  exact filter_append_perm _ _

/-- The members that wait for a container join its entry in their order. -/
theorem adopt_get (pending : List (Node × String)) (entries : InsertionMap String DeadCodeEntry) (id : String) :
    (pending.foldl adoptPending entries).get id = (entries.get id).map fun entry =>
      { entry with members := entry.members ++ (pending.filter fun member => member.2 = id).map Prod.fst } := by
  induction pending generalizing entries with
  | nil =>
    rcases found : entries.get id with _ | entry
    · simp [found]
    · simp [found]
  | cons member rest ih =>
    rw [foldl_cons, ih, adoptPending]
    by_cases here : member.2 = id
    · subst here
      rcases found : entries.get member.2 with _ | entry
      · simp [found]
      · simp [DeadCodeEntry.adopt]
    · rcases found : entries.get member.2 with _ | entry
      · simp [here]
      · simp [here, InsertionMap.get_insert_ne (Ne.symm here)]

/-- The entry of a head with the members that are folded into it. -/
def foldedEntry (pending : List (Node × String)) (head : Node) : DeadCodeEntry :=
  { entryOf head with members := (pending.filter fun member => member.2 = head.id).map Prod.fst }

variable (unicode : Query.Unicode)

section

variable (folded : Folded containers keptIds excluded nodes fold)
include folded

/-- The ranked entries are those of the heads, sorted. -/
theorem Folded.rank_eq : fold.rank unicode = ((headNodes containers keptIds nodes).map fun head =>
      (foldedEntry fold.pending head).sortMembers unicode).insertionSort fun first second =>
        (entryCmp unicode first second).isLE := by
  have found : fold.order.filterMap (fold.pending.foldl adoptPending fold.entries).get =
      (headNodes containers keptIds nodes).map (foldedEntry fold.pending) := by
    rw [folded.order, filterMap_map, ← filterMap_eq_map]
    apply filterMap_congr
    intro head member
    show (fold.pending.foldl adoptPending fold.entries).get head.id = some (foldedEntry fold.pending head)
    rw [adopt_get, folded.entries head member]
    rfl
  rw [MemberFold.rank, found, map_map]
  rfl

theorem Folded.rank_perm : (fold.rank unicode).Perm ((headNodes containers keptIds nodes).map fun head =>
      (foldedEntry fold.pending head).sortMembers unicode) :=
  folded.rank_eq unicode ▸ perm_insertionSort _ _

theorem Folded.nodes_perm : ((fold.rank unicode).map DeadCodeEntry.node).Perm (headNodes containers keptIds nodes) := by
  have ranked := (folded.rank_perm unicode).map DeadCodeEntry.node
  rw [map_map] at ranked
  exact ranked.trans (List.Perm.of_eq (map_id _))

/-- When every container has an entry, the entries hold every member once. -/
theorem Folded.members_perm (distinct : (nodes.map Node.id).Nodup)
    (hung : ∀ member ∈ fold.pending, member.2 ∈ (headNodes containers keptIds nodes).map Node.id) :
    ((fold.rank unicode).flatMap DeadCodeEntry.members).Perm (fold.pending.map Prod.fst) := by
  have ids : ((headNodes containers keptIds nodes).map Node.id).Nodup :=
    distinct.sublist (filter_sublist.map Node.id)
  have dealt := (deal_perm ids hung).map Prod.fst
  rw [flatMap_map, map_flatMap] at dealt
  refine ((folded.rank_perm unicode).flatMap_right _).trans (.trans ?_ dealt)
  rw [flatMap_map]
  apply List.Perm.flatMap_left
  intro head _
  exact perm_insertionSort _ _

end

end Folding

section Counting

variable {unicode : Query.Unicode} {index : DeadCodeIndex} {query : DeadCodeQuery} {rule : ExclusionRule} {node : Node}

theorem rowRule_ne_nested {row : Node × Bool} (dropped : rowRule unicode index query row = some rule) :
    rule ≠ .nested := by
  rintro rfl
  simp only [rowRule] at dropped
  repeat' split at dropped
  all_goals cases dropped

theorem fileRule_ne_nested (dropped : fileRule unicode index query node = some rule) : rule ≠ .nested := by
  rintro rfl
  rw [fileRule] at dropped
  split at dropped <;> cases dropped

theorem graphRule_ne_nested {facts : GraphFacts} (dropped : graphRule facts node = some rule) : rule ≠ .nested := by
  rintro rfl
  simp only [graphRule] at dropped
  repeat' split at dropped
  all_goals cases dropped

theorem sourceRule_ne_nested {reader : String → Option Watch.Scope.Text} {sources : Sources}
    (dropped : (sourceRule unicode reader index sources node).2 = some rule) : rule ≠ .nested := by
  rintro rfl
  simp only [sourceRule] at dropped
  repeat' split at dropped
  all_goals cases dropped

/-- Only the rule of nested members counts them. -/
theorem count_nested {excluded : DeadCodeExclusions} (other : rule ≠ .nested) :
    (excluded.count rule).nested = excluded.nested := by
  cases rule <;> first | rfl | exact absurd rfl other

variable (unicode index query)

/-- No rule before the folding counts a nested member. -/
theorem sourcePass_nested : (sourcePass unicode index query).tally.nested = 0 := by
  let none_ (tally : DeadCodeExclusions) : Prop := tally.nested = 0
  have rows : none_ (rowPass unicode index query).tally :=
    Sieve.run_tally none_ (fun _ _ _ _ dropped held => (count_nested (rowRule_ne_nested dropped)).trans held) rfl
  have files : none_ (filePass unicode index query).tally :=
    Sieve.run_tally none_ (fun _ _ _ _ dropped held => (count_nested (fileRule_ne_nested dropped)).trans held) rows
  have graph : none_ (graphPass unicode index query).tally :=
    Sieve.run_tally none_ (fun _ _ _ _ dropped held => (count_nested (graphRule_ne_nested dropped)).trans held) files
  rw [sourcePass]
  split
  · exact Sieve.run_tally none_
      (fun _ _ _ _ dropped held => (count_nested (sourceRule_ne_nested dropped)).trans held) graph
  · exact graph

/-- Before the folding, each candidate is dropped by one rule or still there. -/
theorem sourcePass_total : (sourcePass unicode index query).tally.total + (sourcePass unicode index query).kept.length =
    (candidates index query).length := by
  have counts := DeadCodeExclusions.total_count
  have rows : (rowPass unicode index query).tally.total + (rowPass unicode index query).kept.length =
      DeadCodeExclusions.none.total + (candidates index query).length := screen_accounts counts
  have left : (surviving unicode index query).length = (rowPass unicode index query).kept.length := length_map _
  have files : (filePass unicode index query).tally.total + (filePass unicode index query).kept.length =
      (rowPass unicode index query).tally.total + (surviving unicode index query).length := screen_accounts counts
  have graph : (graphPass unicode index query).tally.total + (graphPass unicode index query).kept.length =
      (filePass unicode index query).tally.total + (filePass unicode index query).kept.length := screen_accounts counts
  have sources : (sourcePass unicode index query).tally.total + (sourcePass unicode index query).kept.length =
      (graphPass unicode index query).tally.total + (graphPass unicode index query).kept.length := by
    rw [sourcePass]
    split
    · rw [Sieve.run_accounts counts, length_nil, Nat.add_zero]
    · rfl
  rw [DeadCodeExclusions.total_none] at rows
  omega

theorem graphKept_sublist : ((graphPass unicode index query).kept).Sublist (surviving unicode index query) := by
  have files : ((filePass unicode index query).kept).Sublist (surviving unicode index query) := by
    rw [filePass, screen_kept]
    exact filter_sublist
  rw [graphPass, screen_kept]
  exact filter_sublist.trans files

theorem confirmed_sublist : ((sourcePass unicode index query).kept).Sublist (surviving unicode index query) := by
  rw [sourcePass]
  split
  · obtain ⟨more, inside, same⟩ : ∃ more : List Node, more.Sublist (graphPass unicode index query).kept ∧
        (Sieve.run (sourceRule unicode _ index) DeadCodeExclusions.count (graphPass unicode index query).kept
          ⟨.empty, (graphPass unicode index query).tally, []⟩).kept = [] ++ more := Sieve.run_kept
    rw [same]
    exact inside.trans (graphKept_sublist unicode index query)
  · exact graphKept_sublist unicode index query

theorem surviving_sublist : (surviving unicode index query).Sublist ((candidates index query).map Prod.fst) := by
  rw [surviving, rowPass, screen_kept]
  exact filter_sublist.map Prod.fst

theorem confirmed_nodup : ((sourcePass unicode index query).kept.map Node.id).Nodup := by
  have all := ((confirmed_sublist unicode index query).trans (surviving_sublist unicode index query)).map Node.id
  have distinct : ((rawCandidates index query).map fun row => row.1.id).Nodup :=
    DeadCodeIndex.unreferencedNodes_nodup _ _
  rw [map_map] at all
  exact distinct.sublist (all.trans ((take_sublist _ _).map _))

variable {unicode index query}

theorem surviving_stored (left : node ∈ surviving unicode index query) : node ∈ index.tables.nodes := by
  obtain ⟨row, member, rfl⟩ := mem_map.mp ((surviving_sublist unicode index query).subset left)
  exact DeadCodeIndex.mem_of_unreferenced (mem_of_mem_take member)

theorem memberFold_folded : Folded (containers unicode index query) ((sourcePass unicode index query).kept.map Node.id)
    (sourcePass unicode index query).tally (sourcePass unicode index query).kept (memberFold unicode index query) :=
  foldMembers_folded (confirmed_nodup unicode index query)

/-- A container is itself no member. -/
theorem container_alone {id : String} {container : Node}
    (found : (containers unicode index query).lookup id = some container) (same : node.id = container.id) :
    (containers unicode index query).lookup node.id = none := by
  obtain ⟨_, isType, stored⟩ := containersOf_spec found
  rcases looked : (containers unicode index query).lookup node.id with _ | outer
  · rfl
  · obtain ⟨⟨twin, left, twinId, overridable⟩, _, _⟩ := containersOf_spec looked
    have equal : twin = container :=
      inj_on_of_nodup_map index.tables.nodeKey (surviving_stored left) stored (twinId.trans same)
    have noType := isContainerKind_eq_false overridable
    rw [equal, isType] at noType
    cases noType

/-- A member that is folded hangs off an entry. -/
theorem container_has_entry (member : Node × String) (pending : member ∈ (memberFold unicode index query).pending) :
    member.2 ∈ (headNodes (containers unicode index query) ((sourcePass unicode index query).kept.map Node.id)
      (sourcePass unicode index query).kept).map Node.id := by
  rw [memberFold_folded.pending, memberships] at pending
  obtain ⟨node, _, chosen⟩ := mem_filterMap.mp pending
  obtain ⟨id, into, rfl⟩ := Option.map_eq_some_iff.mp chosen
  obtain ⟨named, kept⟩ := Option.filter_eq_some_iff.mp into
  obtain ⟨container, found, rfl⟩ := Option.map_eq_some_iff.mp named
  obtain ⟨head, confirmed, same⟩ := mem_map.mp (contains_iff_mem.mp kept)
  refine mem_map.mpr ⟨head, mem_filter.mpr ⟨confirmed, ?_⟩, same⟩
  rw [foldsInto, container_alone found same]
  rfl

end Counting

/-- The nodes that the report counts as nested. -/
def nestedNodes (unicode : Query.Unicode) (index : DeadCodeIndex) (query : DeadCodeQuery) : List Node :=
  (memberFold unicode index query).pending.map Prod.fst

/-- A report accounts for its candidates when each of them is an entry, a member of one entry, or dropped by a rule. -/
structure DeadCodeReport.Accounts (report : DeadCodeReport) (ranked : List DeadCodeEntry) (nested : List Node) :
    Prop where
  candidates : report.candidates = report.total + report.excluded.total
  total : report.total = ranked.length
  counted : report.excluded.nested = nested.length
  once : ∀ node ∈ nested, ∃! entry, entry ∈ ranked ∧ node ∈ entry.members
  members : (ranked.flatMap DeadCodeEntry.members).Perm nested
  apart : ((ranked.map DeadCodeEntry.node ++ ranked.flatMap DeadCodeEntry.members).map Node.id).Nodup

/-- Lists of members without a repetition hold each node in one entry. -/
theorem one_entry {ranked : List DeadCodeEntry} {node : Node} (distinct : (ranked.flatMap DeadCodeEntry.members).Nodup)
    (member : node ∈ ranked.flatMap DeadCodeEntry.members) : ∃! entry, entry ∈ ranked ∧ node ∈ entry.members := by
  obtain ⟨entry, listed, inside⟩ := mem_flatMap.mp member
  refine ⟨entry, ⟨listed, inside⟩, ?_⟩
  rintro other ⟨otherListed, otherInside⟩
  by_contra different
  have symmetric : Std.Symm (Function.onFun List.Disjoint DeadCodeEntry.members) := ⟨fun _ _ apart => apart.symm⟩
  exact (nodup_flatMap.mp distinct).2.forall otherListed listed different otherInside inside

/-- The dead code report accounts for every candidate exactly once. -/
theorem dead_code_accounts (unicode : Query.Unicode) (index : DeadCodeIndex) (query : DeadCodeQuery) :
    (buildDeadCodeReport unicode index query).Accounts (rankedEntries unicode index query)
        (nestedNodes unicode index query) ∧
      (buildDeadCodeReport unicode index query).entries =
        (rankedEntries unicode index query).take (max query.limit 1) := by
  have folded := @memberFold_folded unicode index query
  have distinct := confirmed_nodup unicode index query
  have members := folded.members_perm unicode distinct container_has_entry
  have heads := folded.nodes_perm unicode
  have split := heads_members_perm (containers unicode index query) ((sourcePass unicode index query).kept.map Node.id)
    (sourcePass unicode index query).kept
  rw [← folded.pending] at split
  have all := (heads.append members).trans split
  refine ⟨⟨?_, rfl, ?_, ?_, members, ?_⟩, rfl⟩
  · have before := sourcePass_total unicode index query
    have after := folded.total
    have parts := split.length_eq
    have ranked := heads.length_eq
    rw [length_append, length_map] at parts
    rw [length_map] at ranked
    show (candidates index query).length = (rankedEntries unicode index query).length +
      (memberFold unicode index query).excluded.total
    rw [rankedEntries]
    omega
  · have counted := folded.nested
    rw [sourcePass_nested, Nat.zero_add] at counted
    rw [nestedNodes, length_map]
    exact counted
  · have apart := (nodup_append.mp ((all.map Node.id).nodup_iff.mpr distinct |>.of_map)).2.1
    exact fun node nested => one_entry apart (members.mem_iff.mpr nested)
  · exact (all.map Node.id).nodup_iff.mpr distinct

end Codegraph.DeadCode
