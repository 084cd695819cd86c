import Codegraph.Core.Types
import Codegraph.Library.Sha256
import Codegraph.Store.Slot

/- This file models the ids of extracted nodes and shows what two equal ids have in common. -/

namespace Codegraph.Embedded
open Codegraph.Core Store List

/-- What the id of a declaration is made of, beside its file. -/
structure Identity where
  kind : NodeKind
  name : String
  line : Nat
  deriving DecidableEq

def nodeText (filePath : String) (identity : Identity) : String :=
  filePath ++ ":" ++ identity.kind.asStr ++ ":" ++ identity.name ++ ":" ++ String.ofList (Nat.toDigits 10 identity.line)

/-- The first thirty-two hexadecimal digits of the hash of a text. -/
def hashStart (text : String) : List Char := (hexLower (Sha256.digest text.toUTF8.data.toList)).toList.take 32

def generateNodeId (filePath : String) (identity : Identity) : String :=
  identity.kind.asStr ++ ":" ++ String.ofList (hashStart (nodeText filePath identity))

def fileNodeId (filePath : String) : String := "file:" ++ filePath

/-- The column of the first declaration that holds each id. -/
structure NodeIdAllocator where
  firstColumns : List (String × Nat)

/-- A later declaration at another column does not take the id of an earlier one. -/
def NodeIdAllocator.generate (ids : NodeIdAllocator) (filePath : String) (identity : Identity) (column : Nat) :
    String × NodeIdAllocator :=
  let id := generateNodeId filePath identity
  match ids.firstColumns.lookup id with
  | none => (id, ⟨(id, column) :: ids.firstColumns⟩)
  | some first => (if first = column then id else id ++ ":" ++ String.ofList (Nat.toDigits 10 column), ids)

/-- The ids of the declarations of one extraction, each with its column. -/
def NodeIdAllocator.allocate (filePath : String) : NodeIdAllocator → List (Identity × Nat) → List String
  | _, [] => []
  | ids, (identity, column) :: rest =>
    let step := ids.generate filePath identity column
    step.1 :: step.2.allocate filePath rest

/-- The texts of some declarations of a file have different hashes. -/
def NoCollision (filePath : String) (identities : List Identity) : Prop :=
  ∀ first ∈ identities, ∀ second ∈ identities,
    hashStart (nodeText filePath first) = hashStart (nodeText filePath second) →
      nodeText filePath first = nodeText filePath second

section Cutting

variable {filePath : String} {first second identity : Identity} {ids : NodeIdAllocator}
  {declared : List (Identity × Nat)}

theorem kind_plain (kind : NodeKind) : ':' ∉ kind.asStr.toList := by
  cases kind <;> decide

theorem kind_inj {first second : NodeKind} (same : first.asStr = second.asStr) : first = second := by
  have named (kind : NodeKind) : NodeKind.all.find? (fun other => other.asStr = kind.asStr) = some kind := by
    cases kind <;> rfl
  have found := named first
  rw [same, named second] at found
  exact (Option.some.inj found).symm

theorem digits_plain (number : Nat) : ':' ∉ Nat.toDigits 10 number := by
  intro member
  exact absurd (Nat.isDigit_of_mem_toDigits (by decide) (by decide) member) (by decide)

theorem digits_inj {first second : Nat} (same : Nat.toDigits 10 first = Nat.toDigits 10 second) : first = second := by
  rw [← Nat.ofDigitChars_ten_toDigits (n := first), same, Nat.ofDigitChars_ten_toDigits]

/-- A text before the first separator is what both texts begin with. -/
theorem cut_front {front other rest more : List Char} {mark : Char} (plain : mark ∉ front) (otherPlain : mark ∉ other)
    (same : front ++ mark :: rest = other ++ mark :: more) : front = other ∧ rest = more := by
  induction front generalizing other with
  | nil =>
    cases other with
    | nil => exact ⟨rfl, (cons.inj same).2⟩
    | cons head tail => exact absurd (mem_cons.mpr (.inl (cons.inj same).1)) otherPlain
  | cons head tail ih =>
    cases other with
    | nil => exact absurd (mem_cons.mpr (.inl (cons.inj same).1.symm)) plain
    | cons head' tail' =>
      obtain ⟨rfl, later⟩ := cons.inj same
      obtain ⟨rfl, rest⟩ := ih (fun member => plain (mem_cons_of_mem _ member))
        (fun member => otherPlain (mem_cons_of_mem _ member)) later
      exact ⟨rfl, rest⟩

theorem cut_back {back other front before : List Char} {mark : Char} (plain : mark ∉ back) (otherPlain : mark ∉ other)
    (same : front ++ mark :: back = before ++ mark :: other) : front = before ∧ back = other := by
  have mirrored : back.reverse ++ mark :: front.reverse = other.reverse ++ mark :: before.reverse := by
    simpa using congrArg reverse same
  obtain ⟨backs, fronts⟩ := cut_front (by simpa using plain) (by simpa using otherPlain) mirrored
  exact ⟨reverse_inj.mp fronts, reverse_inj.mp backs⟩

/-- The kind ends at the first separator after the file, and the line begins behind the last one. -/
theorem nodeText_inj (same : nodeText filePath first = nodeText filePath second) : first = second := by
  obtain ⟨kind, name, line⟩ := first
  obtain ⟨kind', name', line'⟩ := second
  have texts := congrArg String.toList same
  simp only [nodeText, String.toList_append, String.toList_ofList, append_assoc, append_cancel_left_eq]
    at texts
  obtain ⟨kinds, rest⟩ := cut_front (kind_plain kind) (kind_plain kind') texts
  obtain ⟨names, lines⟩ := cut_back (digits_plain line) (digits_plain line') rest
  rw [kind_inj (String.toList_inj.mp kinds), String.toList_inj.mp names, digits_inj lines]

theorem hashStart_length (text : String) : (hashStart text).length = 32 := by
  rw [hashStart, length_take, hexLower_length, Sha256.digest_length]
  rfl

/-- Ids that are equal up to what follows them belong to one identity. -/
theorem identity_of_ids {identities : List Identity} (apart : NoCollision filePath identities)
    (firstIn : first ∈ identities) (secondIn : second ∈ identities) {suffix other : String}
    (same : generateNodeId filePath first ++ suffix = generateNodeId filePath second ++ other) : first = second := by
  have texts := congrArg String.toList same
  have colon : ":".toList = [':'] := rfl
  simp only [generateNodeId, String.toList_append, String.toList_ofList, append_assoc, colon,
    singleton_append] at texts
  obtain ⟨-, rest⟩ := cut_front (kind_plain first.kind) (kind_plain second.kind) texts
  obtain ⟨hashes, -⟩ := append_inj rest (by rw [hashStart_length, hashStart_length])
  exact nodeText_inj (apart first firstIn second secondIn hashes)

/-- An id begins with its kind. -/
theorem generateNodeId_kind (same : generateNodeId filePath first = generateNodeId filePath second) :
    first.kind = second.kind := by
  have texts := congrArg String.toList same
  simp only [generateNodeId, String.toList_append, String.toList_ofList, append_assoc] at texts
  exact kind_inj (String.toList_inj.mp (cut_front (kind_plain first.kind) (kind_plain second.kind) texts).1)

theorem noCollision_of_nodup {identities values : List Identity} (covered : identities ⊆ values)
    (distinct : (values.map fun identity => hashStart (nodeText filePath identity)).Nodup) :
    NoCollision filePath identities := by
  intro first firstIn second secondIn same
  rw [inj_on_of_nodup_map distinct (covered firstIn) (covered secondIn) same]

theorem fileNodeId_ne (notFile : identity.kind ≠ .file) (suffix : String) :
    generateNodeId filePath identity ++ suffix ≠ fileNodeId filePath := by
  intro same
  have texts := congrArg String.toList same
  simp only [generateNodeId, fileNodeId, String.toList_append, append_assoc] at texts
  obtain ⟨kinds, -⟩ := cut_front (kind_plain identity.kind) (kind_plain .file) texts
  exact notFile (kind_inj (String.toList_inj.mp kinds))

/-- Some ids stand for some identities: each id begins with the id of one, and each identity has its own id among
them. -/
structure Stands (filePath : String) (ids : List String) (identities : List Identity) : Prop where
  begins : ∀ id ∈ ids, ∃ identity ∈ identities, ∃ suffix, id = generateNodeId filePath identity ++ suffix
  held : ∀ identity ∈ identities, generateNodeId filePath identity ∈ ids

theorem stands_single : Stands filePath [generateNodeId filePath identity] [identity] where
  begins id member :=
    ⟨identity, mem_singleton_self _, "", by rw [mem_singleton.mp member, String.append_empty]⟩
  held other member := by rw [mem_singleton.mp member]; exact mem_singleton_self _

theorem generate_begins {column : Nat} :
    ∃ suffix, (ids.generate filePath identity column).1 = generateNodeId filePath identity ++ suffix := by
  rw [NodeIdAllocator.generate]
  split
  · exact ⟨"", String.append_empty.symm⟩
  · split
    · exact ⟨"", String.append_empty.symm⟩
    · exact ⟨":" ++ String.ofList (Nat.toDigits 10 column), String.append_assoc ..⟩

theorem allocate_begins {id : String} (member : id ∈ ids.allocate filePath declared) :
    ∃ identity ∈ declared.map Prod.fst, ∃ suffix, id = generateNodeId filePath identity ++ suffix := by
  induction declared generalizing ids with
  | nil => cases member
  | cons entry rest ih =>
    obtain ⟨identity, column⟩ := entry
    rw [NodeIdAllocator.allocate] at member
    rcases mem_cons.mp member with rfl | later
    · exact ⟨identity, mem_cons_self .., generate_begins⟩
    · obtain ⟨other, inside, suffix, named⟩ := ih later
      exact ⟨other, mem_cons_of_mem _ inside, suffix, named⟩

/-- An id that a declaration may take is known, or the first declaration that may take it does. -/
theorem allocate_held (member : identity ∈ declared.map Prod.fst) :
    generateNodeId filePath identity ∈ ids.firstColumns.map Prod.fst ++ ids.allocate filePath declared := by
  induction declared generalizing ids with
  | nil => cases member
  | cons entry rest ih =>
    obtain ⟨first, column⟩ := entry
    rw [NodeIdAllocator.allocate]
    rcases mem_cons.mp member with rfl | later
    · rw [NodeIdAllocator.generate, mem_append]
      split
      · exact .inr (mem_cons_self ..)
      · rename_i known
        obtain ⟨before, after, parts, _⟩ := lookup_eq_some_iff.mp known
        rw [parts]
        simp
    · rcases mem_append.mp (@ih (ids.generate filePath first column).2 later) with known | taken
      · rw [NodeIdAllocator.generate] at known
        split at known
        · rename_i fresh
          rcases mem_cons.mp known with same | old
          · rw [same, NodeIdAllocator.generate, fresh]
            exact mem_append_right _ (mem_cons_self ..)
          · exact mem_append_left _ old
        · exact mem_append_left _ known
      · exact mem_append_right _ (mem_cons_of_mem _ taken)

theorem stands_allocate : Stands filePath ((⟨[]⟩ : NodeIdAllocator).allocate filePath declared)
    (declared.map Prod.fst) where
  begins _ member := allocate_begins member
  held identity member := by simpa using @allocate_held filePath identity ⟨[]⟩ declared member

/-- Two lists of ids share an id exactly when they stand for a common identity. -/
theorem disjoint_iff {firstIds secondIds : List String} {firsts seconds : List Identity}
    (firstStands : Stands filePath firstIds firsts)
    (secondStands : Stands filePath secondIds seconds) (apart : NoCollision filePath (firsts ++ seconds)) :
    firstIds.Disjoint secondIds ↔ firsts.Disjoint seconds := by
  constructor
  · intro disjoint identity inFirst inSecond
    exact disjoint (firstStands.held identity inFirst) (secondStands.held identity inSecond)
  · intro disjoint id inFirst inSecond
    obtain ⟨identity, member, suffix, named⟩ := firstStands.begins id inFirst
    obtain ⟨other, inside, tail, same⟩ := secondStands.begins id inSecond
    have equal := identity_of_ids apart (mem_append_left _ member) (mem_append_right _ inside)
      (named.symm.trans same)
    exact disjoint member (equal ▸ inside)

end Cutting

end Codegraph.Embedded
