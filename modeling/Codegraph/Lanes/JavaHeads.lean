import Codegraph.Graph.QualifiedRange
import Codegraph.Lanes.TwoStates
import Codegraph.Library.Worklists

/- This file models what Java resolution reads of the heads of other files and what a sync re-resolves when heads
move. -/

namespace Codegraph.Lanes.Java

open Codegraph.Core (Language NodeKind)
open Watch.Scope (Text)
open Codegraph.Graph (TextBefore)
open Worklists List

/-- How many type names the scope walk of a bare call visits. -/
def scopeTypeLimit : Nat := 40

/-- How many levels above a type its ancestors are read. -/
def ancestorDepth : Nat := 4

/-- The kinds that a Java type is indexed as. -/
def isJavaTypeKind : NodeKind → Bool
  | .class_ | .interface | .enum => true
  | _ => false

def isJvm : Language → Bool
  | .java | .kotlin | .scala => true
  | _ => false

def isNameStart (c : Char) : Bool := c.isAlpha || c = '_' || c = '$'

def isNamePart (c : Char) : Bool := c.isAlphanum || c = '_' || c = '$'

/-- The ASCII names that the head readers match. -/
def isJavaIdentifier : Text → Bool
  | [] => false
  | c :: rest => isNameStart c && rest.all isNamePart

/-- What `<(name)$anon@digits>` captures at the start of a text, with the text behind the match. -/
def anonymousAt : Text → Option (Text × Text)
  | '<' :: text =>
    let run := text.takeWhile isNamePart
    let base := run.take (run.length - "$anon".length)
    match text.dropWhile isNamePart with
    | '@' :: after =>
      match after.dropWhile Char.isDigit with
      | '>' :: rest =>
        -- The group gives back the letters that `$anon` takes.
        if base ++ "$anon".toList = run && isJavaIdentifier base && !(after.takeWhile Char.isDigit).isEmpty then
          some (base, rest)
        else none
      | _ => none
    | _ => none
  | _ => none

/-- The capture of the first match whose rest is accepted. -/
def findAnonymous (accepts : Text → Bool) : Text → Option Text
  | [] => none
  | c :: text =>
    match anonymousAt (c :: text) with
    | some (base, rest) => if accepts rest then some base else findAnonymous accepts text
    | none => findAnonymous accepts text

def beforeColons : Text → Text
  | ':' :: ':' :: _ => []
  | c :: text => c :: beforeColons text
  | [] => []

/-- What stands behind the last `::`. -/
def lastSegment (text : Text) : Text := (beforeColons text.reverse).reverse

/-- The type that an anonymous class instantiates, read from its name or from the last segment of its qualified name. -/
def anonymousSupertype (name qualifiedName : Text) : Option Text :=
  (findAnonymous List.isEmpty name).or (findAnonymous (fun _ => true) (lastSegment qualifiedName))

/-- The names that the head of a declaration writes, by the two readers. -/
structure JavaHead where
  supertypes : List Text
  ancestors : List Text
  written : ∀ name ∈ supertypes ++ ancestors, isJavaIdentifier name

/-- A node of the index with the head that its text holds. The extractor joins the qualified name from the scopes and
the name, and it names an anonymous class, which alone starts with an angle bracket, for the type it instantiates. -/
structure JavaNode where
  id : Text
  language : Language
  kind : NodeKind
  name : Text
  scopes : List Text
  startLine : Nat
  startColumn : Nat
  endLine : Nat
  head : JavaHead
  simple : language = .java → isJavaTypeKind kind → ':' ∉ name ∧ '<' ∉ name.tail
  anonymous : language = .java → isJavaTypeKind kind → (anonymousSupertype name name).isSome → kind = .class_

namespace JavaNode

def qualifiedName (node : JavaNode) : Text := node.scopes.flatMap (· ++ "::".toList) ++ node.name

def isJavaType (node : JavaNode) : Bool := node.language = .java && isJavaTypeKind node.kind

/-- Declarations are read by line, column and identity. -/
def le (first second : JavaNode) : Bool :=
  if first.startLine ≠ second.startLine then first.startLine < second.startLine
  else if first.startColumn ≠ second.startColumn then first.startColumn < second.startColumn
  else first.id ≤ second.id

def around (node : JavaNode) (line : Nat) : Bool :=
  isJavaTypeKind node.kind && node.startLine ≤ line && line ≤ node.endLine

end JavaNode

/-- The Java types of a file in the order of the file. -/
def javaTypes (nodes : List JavaNode) : List JavaNode :=
  (nodes.filter (·.isJavaType)).insertionSort fun first second => first.le second

/-- One type declaration's head, as resolution reads it. -/
structure HeadEntry where
  name : Text
  qualifiedName : Text
  supertypes : List Text
  ancestors : List Text
  deriving DecidableEq

/-- Every name the head writes, by either reader. -/
def HeadEntry.names (entry : HeadEntry) : List Text := entry.supertypes ++ entry.ancestors

/-- A declaration whose head names nothing has no entry. -/
def headEntry (node : JavaNode) : Option HeadEntry :=
  if !node.head.supertypes.isEmpty || !node.head.ancestors.isEmpty then
    some ⟨node.name, node.qualifiedName, node.head.supertypes, node.head.ancestors⟩
  else none

/-- The row of a file keeps its entries in the order of the declarations. -/
def rowOf (nodes : List JavaNode) : Option (List HeadEntry) :=
  let entries := (javaTypes nodes).filterMap headEntry
  if entries.isEmpty then none else some entries

section Resolution

variable (paths : List Text) (state : Text → List JavaNode)

/-- The Java types of a name, by path and then in the order of their file. -/
def typesNamed (name : Text) : List JavaNode :=
  paths.flatMap fun path => (javaTypes (state path)).filter (·.name = name)

def typesQualified (qualifiedName : Text) : List JavaNode :=
  paths.flatMap fun path => (javaTypes (state path)).filter (·.qualifiedName = qualifiedName)

/-- The names that the declarations of a type name extend or implement. -/
def supertypesOf (name : Text) : List Text := (typesNamed paths state name).flatMap (·.head.supertypes)

/-- The types around a line and what their heads name, breadth first, where an anonymous class derives from what it
instantiates. -/
def callScopeTypes (file : Text) (line : Nat) : Finset Text :=
  (walk (fun name => supertypesOf paths state name ++ (anonymousSupertype name name).toList) scopeTypeLimit
    (((state file).filter (·.around line)).map (·.name)) []).toFinset

def directAncestors (qualifiedName : Text) : List Text :=
  (typesQualified paths state qualifiedName).flatMap (·.head.ancestors)

/-- The types above a type, by their qualified names. -/
def typesAbove (qualifiedName : Text) : List Text :=
  (directAncestors paths state qualifiedName).flatMap fun base =>
    ((typesNamed paths state base).map (·.qualifiedName)).filter (· ≠ qualifiedName)

/-- The names that a type extends or implements, and theirs up to four levels above. -/
def ancestorNames (qualifiedName : Text) : Finset Text :=
  ((levels (typesAbove paths state) ancestorDepth [qualifiedName] []).flatMap (directAncestors paths state)).toFinset

end Resolution

/-- A sync also knows the language of its files and what they import. -/
structure JavaSync extends Sync JavaNode where
  language : Text → Language
  imports : Text → List Text
  bootstrap : Bool
  spoken : ∀ path, changed path = false → ∀ node ∈ before path, node.language = language path

/-- The entries of a name in a file's row, in file order. -/
def entriesByName (row : Option (List HeadEntry)) (name : Text) : List HeadEntry := (row.getD []).filter (·.name = name)

def seeds (changes : List (Text × Change HeadEntry)) : List Text :=
  (Lanes.seeds HeadEntry.name entriesByName changes).dedup

/-- Each name that a head writes with the name of its entry. -/
def naming (rows : List (Text × List HeadEntry)) : List (Text × Text) :=
  rows.flatMap fun row => row.2.flatMap fun entry => entry.names.map (·, entry.name)

/-- The rows before the sync and the new rows of the changed files. -/
def closureRows (sync : JavaSync) : List (Text × List HeadEntry) :=
  sync.beforeRows rowOf ++ (sync.changes rowOf).filterMap fun change => change.2.newRow.map (change.1, ·)

/-- The seeds and the name of every entry whose head names one already reached. -/
def headClosure (sync : JavaSync) : List Text :=
  let starts := seeds (sync.changes rowOf)
  let links := naming (closureRows sync)
  spread (targets links) (fun rest fresh => rest ++ fresh) (starts.length + links.length) starts starts

def anonymousStart (name : Text) : Text := '<' :: name ++ "$anon@".toList

def isHeadDependent (closure : List Text) (node : JavaNode) : Bool :=
  (closure.any fun name => node.name = name) && node.isJavaType ||
    (closure.any fun name => ¬ TextBefore node.name (anonymousStart name) ∧
      TextBefore node.name (anonymousStart name ++ ['\uffff'])) &&
      node.language = .java && node.kind = .class_

/-- The unchanged files that declare a Java type of a closure name, or an anonymous class instantiating one. -/
def headDependents (sync : JavaSync) (closure : List Text) : List Text :=
  sync.paths.filter fun path => !sync.changed path && (sync.after path).any (isHeadDependent closure)

def packagesOf (nodes : List JavaNode) : List Text :=
  (nodes.filter fun node => node.kind = .namespace_ && isJvm node.language).map (·.qualifiedName)

/-- The packages that changed files brought into the project or took out of it. -/
def flippedPackages (sync : JavaSync) : List Text :=
  let changed := sync.paths.filter sync.changed
  let old := changed.flatMap fun path => packagesOf (sync.before path)
  let new := changed.flatMap fun path => packagesOf (sync.after path)
  (old ++ new).filter fun package => decide (package ∈ old) != decide (package ∈ new) &&
    !(sync.paths.filter fun path => !sync.changed path).any fun path => package ∈ packagesOf (sync.after path)

def importDependents (sync : JavaSync) (flipped : List Text) : List Text :=
  sync.paths.filter fun path => (sync.language path = .java || sync.language path = .kotlin) && !sync.changed path &&
    (sync.imports path).any fun source => flipped.any fun package => (package ++ ['.']).isPrefixOf source

/-- The unchanged files to re-resolve whole. -/
def javaRefresh (sync : JavaSync) : List Text :=
  if sync.bootstrap then sync.paths.filter fun path => sync.language path = .java && !sync.changed path
  else headDependents sync (headClosure sync) ++ importDependents sync (flippedPackages sync)

section Names

variable {text part name base rest : Text} {scopes : List Text}

theorem beforeColons_append (free : ':' ∉ part) (ends : rest = [] ∨ ∃ tail, rest = ':' :: ':' :: tail) :
    beforeColons (part ++ rest) = part := by
  induction part with
  | nil =>
    rcases ends with rfl | ⟨tail, rfl⟩
    · rfl
    · rfl
  | cons c part ih =>
    obtain ⟨other, tailFree⟩ := not_or.mp fun either => free (mem_cons.mpr either)
    rw [cons_append, beforeColons.eq_2 _ _ fun _ same => absurd same (Ne.symm other), ih tailFree]

theorem lastSegment_qualified (free : ':' ∉ name) : lastSegment (scopes.flatMap (· ++ "::".toList) ++ name) = name := by
  have ends : (scopes.flatMap (· ++ "::".toList)).reverse = [] ∨
      ∃ tail, (scopes.flatMap (· ++ "::".toList)).reverse = ':' :: ':' :: tail := by
    rcases eq_nil_or_concat scopes with rfl | ⟨outer, scope, rfl⟩
    · exact .inl rfl
    · exact .inr ⟨scope.reverse ++ (outer.flatMap (· ++ "::".toList)).reverse, by simp⟩
  rw [lastSegment, reverse_append, beforeColons_append (by simpa using free) ends, reverse_reverse]

theorem lastSegment_free (free : ':' ∉ name) : lastSegment name = name := @lastSegment_qualified _ [] free

/-- A match starts with the name that it captures. -/
theorem anonymousAt_some (found : anonymousAt text = some (base, rest)) :
    isJavaIdentifier base ∧ ∃ digit tail, text = anonymousStart base ++ digit :: tail ∧ digit.isDigit := by
  unfold anonymousAt at found
  split at found
  · rename_i text
    have parts := takeWhile_append_dropWhile (p := isNamePart) (l := text)
    split at found
    · rename_i after behind
      split at found
      · dsimp only at found
        split at found
        · rename_i shape
          simp only [Bool.and_eq_true, decide_eq_true_eq, Bool.not_eq_true'] at shape
          obtain ⟨⟨same, identifier⟩, digits⟩ := shape
          obtain ⟨captured, rfl⟩ := Prod.mk.inj (Option.some.inj found)
          rw [captured] at same identifier
          refine ⟨identifier, ?_⟩
          match run : after.takeWhile Char.isDigit, digits with
          | digit :: more, _ =>
            have first : digit.isDigit :=
              mem_takeWhile_imp (run ▸ mem_cons_self : digit ∈ after.takeWhile Char.isDigit)
            obtain ⟨further, whole⟩ : ∃ further, digit :: more ++ further = after :=
              ⟨_, run ▸ takeWhile_append_dropWhile (p := Char.isDigit) (l := after)⟩
            refine ⟨digit, more ++ further, ?_, first⟩
            rw [anonymousStart, ← parts, behind, ← same, ← whole]
            simp
        · cases found
      · cases found
    · cases found
  · cases found

theorem findAnonymous_free {accepts : Text → Bool} (free : '<' ∉ text) : findAnonymous accepts text = none := by
  induction text with
  | nil => rfl
  | cons c text ih =>
    obtain ⟨other, tailFree⟩ := not_or.mp fun either => free (mem_cons.mpr either)
    have none : anonymousAt (c :: text) = none := by
      rw [anonymousAt]
      exact fun _ same => other (cons.inj same).1.symm
    rw [findAnonymous, none]
    exact ih tailFree

/-- A name with an angle bracket at its start alone is matched from there. -/
theorem findAnonymous_some {accepts : Text → Bool} (free : '<' ∉ text.tail)
    (found : findAnonymous accepts text = some base) : ∃ rest, anonymousAt text = some (base, rest) := by
  match text, free, found with
  | c :: text, free, found =>
    have behind : findAnonymous accepts text = none := findAnonymous_free free
    rw [findAnonymous, behind] at found
    split at found
    · rename_i other rest here
      split at found
      · exact ⟨rest, Option.some.inj found ▸ here⟩
      · cases found
    · cases found

theorem free_of_isJavaIdentifier (identifier : isJavaIdentifier name) : ':' ∉ name ∧ '<' ∉ name := by
  match name, identifier with
  | c :: rest, identifier =>
    rw [isJavaIdentifier, Bool.and_eq_true, all_eq_true] at identifier
    have apart (bad : Char) (start : isNameStart bad = false) (part : isNamePart bad = false) : bad ∉ c :: rest := by
      intro member
      rcases mem_cons.mp member with rfl | later
      · exact absurd identifier.1 (by simp [start])
      · exact absurd (identifier.2 bad later) (by simp [part])
    exact ⟨apart ':' (by decide) (by decide), apart '<' (by decide) (by decide)⟩

theorem anonymousSupertype_identifier (identifier : isJavaIdentifier name) : anonymousSupertype name name = none := by
  obtain ⟨colons, angles⟩ := free_of_isJavaIdentifier identifier
  rw [anonymousSupertype, lastSegment_free colons, findAnonymous_free angles, findAnonymous_free angles]
  rfl

/-- The name of an anonymous class starts with what it instantiates. -/
theorem anonymousSupertype_some (colons : ':' ∉ name) (angles : '<' ∉ name.tail)
    (found : anonymousSupertype name name = some base) :
    isJavaIdentifier base ∧ ∃ digit tail, name = anonymousStart base ++ digit :: tail ∧ digit.isDigit := by
  rw [anonymousSupertype, lastSegment_free colons, Option.or_eq_some_iff] at found
  rcases found with atEnd | ⟨-, anywhere⟩
  · obtain ⟨rest, here⟩ := findAnonymous_some angles atEnd
    exact anonymousAt_some here
  · obtain ⟨rest, here⟩ := findAnonymous_some angles anywhere
    exact anonymousAt_some here

theorem not_before_append (front rest : Text) : ¬ List.Lex (· < ·) (front ++ rest) front := by
  induction front with
  | nil => exact not_lex_nil
  | cons c front ih =>
    rw [cons_append, cons_lex_cons_iff, not_or]
    exact ⟨lt_irrefl c, fun same => ih same.2⟩

end Names

section Dependents

variable {node : JavaNode} {closure : List Text} {base : Text}

theorem isHeadDependent_of_named (type : node.isJavaType) (named : node.name ∈ closure) :
    isHeadDependent closure node := by
  simp [isHeadDependent, type, named]

/-- The range of the names that start with a closure name holds the anonymous classes that instantiate it. -/
theorem isHeadDependent_of_anonymous (type : node.isJavaType)
    (found : anonymousSupertype node.name node.name = some base)
    (member : base ∈ closure) : isHeadDependent closure node := by
  rw [JavaNode.isJavaType, Bool.and_eq_true, decide_eq_true_eq] at type
  obtain ⟨colons, angles⟩ := node.simple type.1 type.2
  have kind : node.kind = .class_ := node.anonymous type.1 type.2 (by rw [found]; rfl)
  obtain ⟨-, digit, tail, shape, isDigit⟩ := anonymousSupertype_some colons angles found
  have below : digit < '\uffff' := by
    rw [Char.isDigit, Bool.and_eq_true, decide_eq_true_eq, decide_eq_true_eq] at isDigit
    exact lt_of_le_of_lt isDigit.2 (by decide)
  have inRange : ¬ TextBefore node.name (anonymousStart base) ∧
    TextBefore node.name (anonymousStart base ++ ['\uffff']) := by
    rw [TextBefore, TextBefore, Utf8.bytes_lex_iff, Utf8.bytes_lex_iff, shape]
    exact ⟨not_before_append _ _, List.Lex.append_left _ (List.Lex.rel below) _⟩
  simp only [isHeadDependent, Bool.or_eq_true, Bool.and_eq_true, decide_eq_true_eq]
  exact .inr ⟨⟨any_eq_true.mpr ⟨base, member, decide_eq_true inRange⟩, type.1⟩, kind⟩

end Dependents

section Rows

variable {nodes : List JavaNode} {name target qualifiedName : Text} {paths : List Text} {state : Text → List JavaNode}
  {node : JavaNode} {entry : HeadEntry}

theorem qualified_name (type : JavaNode.isJavaType node) : lastSegment node.qualifiedName = node.name := by
  rw [JavaNode.isJavaType, Bool.and_eq_true, decide_eq_true_eq] at type
  exact lastSegment_qualified (node.simple type.1 type.2).1

theorem mem_javaTypes : node ∈ javaTypes nodes ↔ node ∈ nodes ∧ node.isJavaType := by
  rw [javaTypes, (perm_insertionSort _ _).mem_iff, mem_filter]

/-- A row holds the entries of the declarations that have one. -/
theorem rowOf_getD (nodes : List JavaNode) : (rowOf nodes).getD [] = (javaTypes nodes).filterMap headEntry := by
  unfold rowOf
  dsimp only
  split
  · rename_i none
    exact (isEmpty_iff.mp none).symm
  · rfl

theorem headEntry_some (found : headEntry node = some entry) :
    entry = ⟨node.name, node.qualifiedName, node.head.supertypes, node.head.ancestors⟩ := by
  unfold headEntry at found
  split at found
  · exact (Option.some.inj found).symm
  · cases found

/-- The declarations without an entry add nothing to what a walk reads. -/
theorem flatMap_supertypes (types : List JavaNode) (name : Text) :
    (types.filter (·.name = name)).flatMap (·.head.supertypes) =
    ((types.filterMap headEntry).filter (·.name = name)).flatMap (·.supertypes) := by
  induction types with
  | nil => rfl
  | cons node types ih =>
    cases found : headEntry node with
    | none =>
      have silent : node.head.supertypes = [] := by
        unfold headEntry at found
        split at found
        · cases found
        · rename_i quiet
          simp only [Bool.or_eq_true, Bool.not_eq_true', not_or, Bool.not_eq_false, List.isEmpty_iff] at quiet
          exact quiet.1
      rw [List.filterMap_cons_none found, ← ih, List.filter_cons]
      split
      · rw [List.flatMap_cons, silent, List.nil_append]
      · rfl
    | some entry =>
      obtain rfl := headEntry_some found
      rw [List.filterMap_cons_some found, List.filter_cons, List.filter_cons]
      split
      · rw [flatMap_cons, flatMap_cons, ih]
      · exact ih

theorem supertypesOf_eq : supertypesOf paths state name =
    paths.flatMap fun path => (entriesByName (rowOf (state path)) name).flatMap (·.supertypes) := by
  simp only [supertypesOf, typesNamed, entriesByName, rowOf_getD, flatMap_assoc, flatMap_supertypes]

theorem mem_row : entry ∈ (rowOf nodes).getD [] ↔ ∃ node ∈ nodes, node.isJavaType ∧ headEntry node = some entry := by
  rw [rowOf_getD, mem_filterMap]
  simp only [mem_javaTypes, and_assoc]

theorem mem_entriesByName :
    entry ∈ entriesByName (rowOf nodes) name ↔ entry ∈ (rowOf nodes).getD [] ∧ entry.name = name := by
  rw [entriesByName, mem_filter, decide_eq_true_eq]

theorem lastSegment_of_mem_row (member : entry ∈ (rowOf nodes).getD []) :
    lastSegment entry.qualifiedName = entry.name := by
  obtain ⟨node, -, type, found⟩ := mem_row.mp member
  rw [headEntry_some found]
  exact qualified_name type

theorem exists_headEntry (written : target ∈ node.head.supertypes ++ node.head.ancestors) :
    headEntry node = some ⟨node.name, node.qualifiedName, node.head.supertypes, node.head.ancestors⟩ := by
  unfold headEntry
  rw [if_pos]
  rw [Bool.or_eq_true, Bool.not_eq_true', Bool.not_eq_true', isEmpty_eq_false_iff, isEmpty_eq_false_iff]
  exact (mem_append.mp written).imp ne_nil_of_mem ne_nil_of_mem

theorem mem_supertypesOf : target ∈ supertypesOf paths state name ↔
    ∃ path ∈ paths, ∃ entry ∈ (rowOf (state path)).getD [], entry.name = name ∧ target ∈ entry.supertypes := by
  rw [supertypesOf_eq, mem_flatMap]
  simp only [mem_flatMap, mem_entriesByName, and_assoc]

/-- The direct ancestors are those that some row names. -/
theorem mem_directAncestors : target ∈ directAncestors paths state qualifiedName ↔
    ∃ path ∈ paths, ∃ entry ∈ (rowOf (state path)).getD [], entry.qualifiedName = qualifiedName ∧
      target ∈ entry.ancestors := by
  simp only [directAncestors, typesQualified, mem_flatMap, mem_filter, decide_eq_true_eq, mem_javaTypes,
    mem_row]
  constructor
  · rintro ⟨node, ⟨path, known, ⟨member, type⟩, rfl⟩, written⟩
    exact ⟨path, known, _, ⟨node, member, type, exists_headEntry (mem_append_right _ written)⟩, rfl, written⟩
  · rintro ⟨path, known, entry, ⟨node, member, type, found⟩, rfl, written⟩
    rw [headEntry_some found] at written ⊢
    exact ⟨node, ⟨path, known, ⟨member, type⟩, rfl⟩, written⟩

theorem mem_typesAbove {above : Text} : above ∈ typesAbove paths state qualifiedName ↔
    ∃ path ∈ paths, ∃ node ∈ state path, node.isJavaType ∧ node.name ∈ directAncestors paths state qualifiedName ∧
      node.qualifiedName = above ∧ above ≠ qualifiedName := by
  simp only [typesAbove, typesNamed, mem_flatMap, mem_filter, mem_map, decide_eq_true_eq, mem_javaTypes]
  constructor
  · rintro ⟨base, direct, ⟨node, ⟨path, known, ⟨member, type⟩, rfl⟩, rfl⟩, other⟩
    exact ⟨path, known, node, member, type, direct, rfl, other⟩
  · rintro ⟨path, known, node, member, type, direct, rfl, other⟩
    exact ⟨node.name, direct, ⟨node, ⟨path, known, ⟨member, type⟩, rfl⟩, rfl⟩, other⟩

/-- What a head writes is an identifier. -/
theorem identifier_of_mem_row (member : entry ∈ (rowOf nodes).getD []) (written : target ∈ entry.names) :
    isJavaIdentifier target := by
  obtain ⟨node, -, -, found⟩ := mem_row.mp member
  rw [headEntry_some found] at written
  exact node.head.written target written

end Rows

section Apart

variable {paths : List Text} {shut : List Text} {one two : Text → List JavaNode}
  {name target qualifiedName start above : Text} {steps : Nat}

/-- Two states have the same entries for every name out of a set, and no head out of the set names one inside. -/
structure Apart (paths : List Text) (shut : List Text) (one two : Text → List JavaNode) : Prop where
  same : ∀ name, name ∉ shut →
    ∀ path ∈ paths, entriesByName (rowOf (one path)) name = entriesByName (rowOf (two path)) name
  outward : ∀ path ∈ paths, ∀ entry ∈ (rowOf (one path)).getD [], entry.name ∉ shut →
    ∀ written ∈ entry.names, written ∉ shut

theorem Apart.entry (apart : Apart paths shut one two) {path : Text} (known : path ∈ paths) {entry : HeadEntry}
    (member : entry ∈ (rowOf (one path)).getD []) (out : entry.name ∉ shut) : entry ∈ (rowOf (two path)).getD [] := by
  have named : entry ∈ entriesByName (rowOf (one path)) entry.name := mem_entriesByName.mpr ⟨member, rfl⟩
  rw [apart.same entry.name out path known] at named
  exact (mem_entriesByName.mp named).1

theorem Apart.symm (apart : Apart paths shut one two) : Apart paths shut two one := by
  have same : ∀ name, name ∉ shut →
    ∀ path ∈ paths, entriesByName (rowOf (two path)) name = entriesByName (rowOf (one path)) name :=
    fun name out path known => (apart.same name out path known).symm
  refine ⟨same, fun path known entry member out => ?_⟩
  have named : entry ∈ entriesByName (rowOf (two path)) entry.name := mem_entriesByName.mpr ⟨member, rfl⟩
  rw [same entry.name out path known] at named
  exact apart.outward path known entry (mem_entriesByName.mp named).1 out

theorem Apart.supertypesOf_congr (apart : Apart paths shut one two) (out : name ∉ shut) :
    supertypesOf paths one name = supertypesOf paths two name := by
  rw [supertypesOf_eq, supertypesOf_eq]
  exact flatMap_congr fun path known => by rw [apart.same name out path known]

/-- A name that a walk may read: it is out of the set, and so is what it instantiates. -/
def Outside (shut : List Text) (name : Text) : Prop :=
  name ∉ shut ∧ ∀ base, anonymousSupertype name name = some base → base ∉ shut

section

variable (apart : Apart paths shut one two)
include apart

/-- From a name outside the closure a step leads to names outside it. -/
theorem Apart.outside_next (simple : ∀ base, anonymousSupertype name name = some base → isJavaIdentifier base)
    (out : Outside shut name) (member : target ∈ supertypesOf paths one name ++ (anonymousSupertype name name).toList) :
    isJavaIdentifier target ∧ Outside shut target := by
  have identifies (identifier : isJavaIdentifier target) (free : target ∉ shut) : isJavaIdentifier target ∧
    Outside shut target := by
    refine ⟨identifier, free, fun base found => ?_⟩
    cases (anonymousSupertype_identifier identifier).symm.trans found
  rcases mem_append.mp member with written | instantiated
  · obtain ⟨path, known, entry, listed, rfl, named⟩ := mem_supertypesOf.mp written
    have among : target ∈ entry.names := mem_append_left _ named
    exact identifies (identifier_of_mem_row listed among) (apart.outward path known entry listed out.1 target among)
  · have found := Option.mem_toList.mp instantiated
    exact identifies (simple target found) (out.2 target found)

theorem Apart.directAncestors_subset (out : lastSegment qualifiedName ∉ shut)
    (member : target ∈ directAncestors paths one qualifiedName) :
    target ∈ directAncestors paths two qualifiedName ∧ target ∉ shut := by
  obtain ⟨path, known, entry, listed, rfl, written⟩ := mem_directAncestors.mp member
  rw [lastSegment_of_mem_row listed] at out
  exact ⟨mem_directAncestors.mpr ⟨path, known, entry, apart.entry known listed out, rfl, written⟩,
    apart.outward path known entry listed out target (mem_append_right _ written)⟩

/-- A type above another keeps its place when its own head names something. -/
theorem Apart.above_kept (out : lastSegment qualifiedName ∉ shut)
    (member : above ∈ typesAbove paths one qualifiedName) (headed : target ∈ directAncestors paths one above) :
    above ∈ typesAbove paths two qualifiedName ∧ lastSegment above ∉ shut := by
  obtain ⟨path, known, node, declared, type, direct, rfl, other⟩ := mem_typesAbove.mp member
  obtain ⟨kept, free⟩ := apart.directAncestors_subset out direct
  rw [← qualified_name type] at free
  obtain ⟨place, read, entry, listed, same, -⟩ := mem_directAncestors.mp headed
  have named : entry.name = node.name := by rw [← lastSegment_of_mem_row listed, same, qualified_name type]
  have still := apart.entry read listed (by rw [← lastSegment_of_mem_row listed, same]; exact free)
  obtain ⟨twin, there, isType, found⟩ := mem_row.mp still
  rw [headEntry_some found] at named same
  have twinNamed : twin.name = node.name := named
  exact ⟨mem_typesAbove.mpr ⟨place, read, twin, there, isType, twinNamed ▸ kept, same, other⟩, free⟩

theorem Apart.climb (out : lastSegment start ∉ shut)
    (walk : Breadth.Walk (fun place above => above ∈ typesAbove paths one place) {start} steps qualifiedName)
    (headed : target ∈ directAncestors paths one qualifiedName) :
    Breadth.Walk (fun place above => above ∈ typesAbove paths two place)
    {start} steps qualifiedName ∧ lastSegment qualifiedName ∉ shut := by
  induction walk generalizing target with
  | here single => exact ⟨.here single, Set.mem_singleton_iff.mp single ▸ out⟩
  | @step depth place _ reached taken ih =>
    obtain ⟨-, -, node, -, -, direct, -⟩ := mem_typesAbove.mp taken
    obtain ⟨still, free⟩ := ih direct
    obtain ⟨kept, beyond⟩ := apart.above_kept free taken headed
    exact ⟨still.step kept, beyond⟩

theorem Apart.ancestorNames_subset (out : lastSegment start ∉ shut) :
    ancestorNames paths one start ⊆ ancestorNames paths two start := by
  intro target member
  simp only [ancestorNames, mem_toFinset, mem_flatMap, mem_levels] at member ⊢
  obtain ⟨qualifiedName, ⟨near, bounded, walk⟩, direct⟩ := member
  obtain ⟨still, free⟩ := apart.climb out walk direct
  exact ⟨qualifiedName, ⟨near, bounded, still⟩, (apart.directAncestors_subset free direct).1⟩

theorem Apart.ancestorNames_congr (out : lastSegment start ∉ shut) :
    ancestorNames paths one start = ancestorNames paths two start :=
  (apart.ancestorNames_subset out).antisymm (apart.symm.ancestorNames_subset out)

end

end Apart

section Claims

variable {sync : JavaSync} {file : Text} {line : Nat}

theorem entriesByName_absent (row : Option (List HeadEntry)) (name : Text)
    (absent : name ∉ (row.getD []).map HeadEntry.name) : entriesByName row name = [] := by
  rw [entriesByName, filter_eq_nil_iff]
  intro entry member same
  exact absent (mem_map.mpr ⟨entry, member, of_decide_eq_true same⟩)

theorem mem_naming {rows : List (Text × List HeadEntry)} {written name : Text} : (written, name) ∈ naming rows ↔
    ∃ row ∈ rows, ∃ entry ∈ row.2, written ∈ entry.names ∧ entry.name = name := by
  simp only [naming, mem_flatMap, mem_map, Prod.mk.injEq]
  constructor
  · rintro ⟨row, listed, entry, member, _, written, rfl, rfl⟩
    exact ⟨row, listed, entry, member, written, rfl⟩
  · rintro ⟨row, listed, entry, member, written, rfl⟩
    exact ⟨row, listed, entry, member, _, written, rfl, rfl⟩

theorem mem_headClosure {name : Text} : name ∈ headClosure sync ↔
    ∃ seed ∈ seeds (sync.changes rowOf), Reaches (targets (naming (closureRows sync))) seed name := by
  have once : (seeds (sync.changes rowOf)).Nodup := nodup_dedup _
  have targeted (place : Text) : targets (naming (closureRows sync)) place ⊆
      seeds (sync.changes rowOf) ++ (naming (closureRows sync)).map Prod.snd :=
    fun other taken => mem_append_right _ (mem_map_of_mem (mem_targets.mp taken))
  exact mem_spread_iff (fun _ _ => .refl _) once (.refl _) (subset_append_left _ _) targeted (by simp)

/-- The closure is closed under the entries of the state before the sync. -/
theorem apart_headClosure : Apart sync.paths (headClosure sync) sync.before sync.after := by
  have unseeded {name : Text} (out : name ∉ headClosure sync) : name ∉ Lanes.seeds HeadEntry.name entriesByName
    (sync.changes rowOf) :=
    fun seeded => out (mem_headClosure.mpr ⟨name, mem_dedup.mpr seeded, .refl⟩)
  constructor
  · exact fun name out path known => table_of_not_seed entriesByName_absent (unseeded out) known
  · intro path known entry member out written named inside
    obtain ⟨seed, seeded, reaches⟩ := mem_headClosure.mp inside
    have listed : (path, (rowOf (sync.before path)).getD []) ∈ closureRows sync := by
      refine mem_append_left _ (Sync.mem_beforeRows.mpr ⟨known, ?_⟩)
      cases found : rowOf (sync.before path) with
      | none => rw [found] at member; cases member
      | some entries => rfl
    have taken : entry.name ∈ targets (naming (closureRows sync)) written :=
      mem_targets.mpr (mem_naming.mpr ⟨_, listed, entry, member, named, rfl⟩)
    exact out (mem_headClosure.mpr ⟨seed, seeded, reaches.tail taken⟩)

/-- An unchanged file that the heads do not list has no type of a closure name and none instantiating one. -/
theorem outside_of_not_listed (listed : file ∈ sync.paths) (kept : sync.changed file = false)
    (free : file ∉ headDependents sync (headClosure sync)) {node : JavaNode} (member : node ∈ sync.before file)
    (type : node.isJavaType) : Outside (headClosure sync) node.name := by
  have still : node ∈ sync.after file := sync.kept file kept ▸ member
  have silent : ¬ isHeadDependent (headClosure sync) node = true := by
    intro dependent
    refine free (mem_filter.mpr ⟨listed, ?_⟩)
    rw [kept, Bool.not_false, Bool.true_and]
    exact any_eq_true.mpr ⟨node, still, dependent⟩
  exact ⟨fun inside => silent (isHeadDependent_of_named type inside),
    fun base found inside => silent (isHeadDependent_of_anonymous type found inside)⟩

/-- A file that the lane does not list keeps the types of its call scopes. -/
theorem callScopeTypes_of_not_listed (listed : file ∈ sync.paths) (kept : sync.changed file = false)
    (java : sync.language file = .java) (free : file ∉ headDependents sync (headClosure sync)) :
    callScopeTypes sync.paths sync.before file line = callScopeTypes sync.paths sync.after file line := by
  have apart : Apart sync.paths (headClosure sync) sync.before sync.after := apart_headClosure
  have good (name : Text) (reached : ∃ start ∈ ((sync.before file).filter (·.around line)).map (·.name),
      Reaches (fun name => supertypesOf sync.paths sync.before name ++ (anonymousSupertype name name).toList) start
        name) :
      (∀ base, anonymousSupertype name name = some base → isJavaIdentifier base) ∧ Outside (headClosure sync) name := by
    obtain ⟨start, begun, reaches⟩ := reached
    induction reaches with
    | refl =>
      obtain ⟨node, among, rfl⟩ := mem_map.mp begun
      obtain ⟨member, around⟩ := mem_filter.mp among
      simp only [JavaNode.around, Bool.and_eq_true] at around
      have spoken : node.language = .java := (sync.spoken file kept node member).trans java
      have type : node.isJavaType := by rw [JavaNode.isJavaType, spoken, around.1.1]; rfl
      obtain ⟨colons, angles⟩ := node.simple spoken around.1.1
      exact ⟨fun base found => (anonymousSupertype_some colons angles found).1,
        outside_of_not_listed listed kept free member type⟩
    | tail _ taken ih =>
      obtain ⟨identifier, outside⟩ := apart.outside_next ih.1 ih.2 taken
      refine ⟨fun base found => ?_, outside⟩
      cases (anonymousSupertype_identifier identifier).symm.trans found
  have walks : walk
    (fun name => supertypesOf sync.paths sync.before name ++ (anonymousSupertype name name).toList) scopeTypeLimit
        (((sync.before file).filter (·.around line)).map (·.name)) [] =
      walk (fun name => supertypesOf sync.paths sync.after name ++ (anonymousSupertype name name).toList) scopeTypeLimit
        (((sync.before file).filter (·.around line)).map (·.name)) [] := by
    refine walk_congr fun name seen => ?_
    have reached := (reaches_of_mem_walk seen).resolve_left not_mem_nil
    rw [apart.supertypesOf_congr (good name reached).2.1]
  rw [callScopeTypes, callScopeTypes, sync.kept file kept, walks]

theorem ancestorNames_of_not_listed (listed : file ∈ sync.paths) (kept : sync.changed file = false)
    (java : sync.language file = .java)
    (free : file ∉ headDependents sync (headClosure sync)) {node : JavaNode} (member : node ∈ sync.before file)
    (around : node.around line) : ancestorNames sync.paths sync.before node.qualifiedName =
      ancestorNames sync.paths sync.after node.qualifiedName := by
  simp only [JavaNode.around, Bool.and_eq_true] at around
  have type : node.isJavaType := by rw [JavaNode.isJavaType, sync.spoken file kept node member, java, around.1.1]; rfl
  refine apart_headClosure.ancestorNames_congr ?_
  rw [qualified_name type]
  exact (outside_of_not_listed listed kept free member type).1

/-- An unchanged Java file is re-resolved whole when the types in reach of one of its lines, or the ancestors of a
type around it, moved. -/
theorem java_lane_covers (sync : JavaSync) (file : Text) (line : Nat) (listed : file ∈ sync.paths)
    (kept : sync.changed file = false) (java : sync.language file = .java)
    (moved : callScopeTypes sync.paths sync.before file line ≠ callScopeTypes sync.paths sync.after file line ∨
      ∃ node ∈ sync.before file, node.around line ∧
        ancestorNames sync.paths sync.before node.qualifiedName ≠ ancestorNames sync.paths sync.after
          node.qualifiedName) : file ∈ javaRefresh sync := by
  unfold javaRefresh
  split
  · exact mem_filter.mpr ⟨listed, by rw [java, kept]; rfl⟩
  · refine mem_append_left _ ?_
    by_contra free
    rcases moved with types | ⟨node, member, around, names⟩
    · exact types (callScopeTypes_of_not_listed listed kept java free)
    · exact names (ancestorNames_of_not_listed listed kept java free member around)

/-- A class of one line whose head is written by both readers. -/
def lineClass (name : Text) (bases : List Text) (simple : ':' ∉ name ∧ '<' ∉ name.tail)
    (written : ∀ base ∈ bases ++ bases, isJavaIdentifier base) : JavaNode :=
  { id := name
    language := .java
    kind := .class_
    name := name
    scopes := []
    startLine := 1
    startColumn := 0
    endLine := 1
    head := ⟨bases, bases, written⟩
    simple := fun _ _ => simple
    anonymous := fun _ _ _ => rfl }

/-- The base of an unchanged class gets a base of its own. -/
def newGrandparent : JavaSync :=
  let derived := lineClass "A".toList ["B".toList] (by decide) (by decide)
  let root := lineClass "B".toList [] (by decide) (by decide)
  let deriving_ := lineClass "B".toList ["C".toList] (by decide) (by decide)
  { paths := ["A.java".toList, "B.java".toList]
    ordered := by decide
    before := fun path => if path = "A.java".toList then [derived] else if path = "B.java".toList then [root] else []
    after := fun path => if path = "A.java".toList then [derived] else if path = "B.java".toList then [deriving_]
      else []
    changed := fun path => path = "B.java".toList
    kept := by
      intro path kept
      rw [if_neg (of_decide_eq_false kept), if_neg (of_decide_eq_false kept)]
    language := fun _ => .java
    imports := fun _ => []
    bootstrap := false
    spoken := by
      intro path kept node member
      rw [if_neg (of_decide_eq_false kept)] at member
      split at member
      · rw [List.mem_singleton.mp member]; rfl
      · cases member }

/-- A grandparent whose supertypes change. -/
theorem java_lane_covers_grandparent : "A.java".toList ∈ javaRefresh newGrandparent :=
  java_lane_covers newGrandparent "A.java".toList 1 (by decide) (by decide) rfl (.inl (by decide))

end Claims

end Codegraph.Lanes.Java
