import Mathlib.Order.Lattice.Nat

/- This file develops the least number of single edits between two texts. -/

namespace EditScripts
open List

variable {α : Type}

/-- One edit inserts, deletes, or replaces one character at any place. -/
inductive Edit : List α → List α → Prop
  | insert (front back : List α) (letter : α) : Edit (front ++ back) (front ++ letter :: back)
  | delete (front back : List α) (letter : α) : Edit (front ++ letter :: back) (front ++ back)
  | replace (front back : List α) (old new : α) : Edit (front ++ old :: back) (front ++ new :: back)

/-- A script makes its edits one after another. -/
inductive Edits : Nat → List α → List α → Prop
  | done (text : List α) : Edits 0 text text
  | step {count : Nat} {first middle last : List α} (before : Edits count first middle) (edit : Edit middle last) :
      Edits (count + 1) first last

/-- The Levenshtein distance is the length of a shortest script. -/
noncomputable def levenshtein (first last : List α) : Nat := sInf {count | Edits count first last}

/-- An alignment reads both texts once, from left to right. -/
inductive Alignment : Nat → List α → List α → Prop
  | done : Alignment 0 [] []
  | keep {count : Nat} {first last : List α} (letter : α) (rest : Alignment count first last) :
      Alignment count (letter :: first) (letter :: last)
  | replace {count : Nat} {first last : List α} (old new : α) (rest : Alignment count first last) :
      Alignment (count + 1) (old :: first) (new :: last)
  | insert {count : Nat} {first last : List α} (new : α) (rest : Alignment count first last) :
      Alignment (count + 1) first (new :: last)
  | delete {count : Nat} {first last : List α} (old : α) (rest : Alignment count first last) :
      Alignment (count + 1) (old :: first) last

section Alignments

variable {count other : Nat} {first second last final front back : List α} {letter new : α}

theorem Alignment.refl (text : List α) : Alignment 0 text text := by
  induction text with
  | nil => exact .done
  | cons letter rest ih => exact .keep letter ih

theorem Alignment.append (left : Alignment count first last) (right : Alignment other second final) :
    Alignment (count + other) (first ++ second) (last ++ final) := by
  induction left with
  | done => simpa using right
  | keep letter _ ih => exact .keep letter ih
  | replace old new _ ih => exact Nat.succ_add _ _ ▸ .replace old new ih
  | insert new _ ih => exact Nat.succ_add _ _ ▸ .insert new ih
  | delete old _ ih => exact Nat.succ_add _ _ ▸ .delete old ih

/-- An alignment can be cut wherever its target can. -/
theorem Alignment.split (aligned : Alignment count first (front ++ back)) :
    ∃ left right early late, first = left ++ right ∧ early + late = count ∧ Alignment early left front ∧
      Alignment late right back := by
  generalize whole : front ++ back = target at aligned
  induction aligned generalizing front with
  | done =>
    obtain ⟨rfl, rfl⟩ := append_eq_nil_iff.mp whole
    exact ⟨[], [], 0, 0, rfl, rfl, .done, .done⟩
  | @keep count first last letter rest ih =>
    rcases front with _ | ⟨head, front⟩
    · cases whole
      exact ⟨[], letter :: first, 0, count, rfl, by omega, .done, rest.keep letter⟩
    · obtain ⟨rfl, tail⟩ := cons.inj whole
      obtain ⟨left, right, early, late, rfl, rfl, begun, ended⟩ := ih tail
      exact ⟨head :: left, right, early, late, rfl, rfl, begun.keep head, ended⟩
  | @replace count first last old new rest ih =>
    rcases front with _ | ⟨head, front⟩
    · cases whole
      exact ⟨[], old :: first, 0, count + 1, rfl, by omega, .done, rest.replace old new⟩
    · obtain ⟨rfl, tail⟩ := cons.inj whole
      obtain ⟨left, right, early, late, rfl, rfl, begun, ended⟩ := ih tail
      exact ⟨old :: left, right, early + 1, late, rfl, by omega, begun.replace old head, ended⟩
  | @insert count first last new rest ih =>
    rcases front with _ | ⟨head, front⟩
    · cases whole
      exact ⟨[], first, 0, count + 1, rfl, by omega, .done, rest.insert new⟩
    · obtain ⟨rfl, tail⟩ := cons.inj whole
      obtain ⟨left, right, early, late, rfl, rfl, begun, ended⟩ := ih tail
      exact ⟨left, right, early + 1, late, rfl, by omega, begun.insert head, ended⟩
  | @delete count first last old rest ih =>
    obtain ⟨left, right, early, late, rfl, rfl, begun, ended⟩ := ih whole
    exact ⟨old :: left, right, early + 1, late, rfl, by omega, begun.delete old, ended⟩

theorem Alignment.symm (aligned : Alignment count first last) : Alignment count last first := by
  induction aligned with
  | done => exact .done
  | keep letter _ ih => exact ih.keep letter
  | replace old new _ ih => exact ih.replace new old
  | insert new _ ih => exact ih.delete new
  | delete old _ ih => exact ih.insert old

theorem Alignment.reverse (aligned : Alignment count first last) : Alignment count first.reverse last.reverse := by
  induction aligned with
  | done => exact .done
  | keep letter _ ih => simpa using ih.append (.keep letter .done)
  | replace old new _ ih => simpa using ih.append (.replace old new .done)
  | insert new _ ih => simpa using ih.append (.insert new .done)
  | delete old _ ih => simpa using ih.append (.delete old .done)

/-- Dropping the first target character costs at most one edit. -/
theorem Alignment.dropTarget (aligned : Alignment count first (letter :: last)) :
    ∃ fewer ≤ count + 1, Alignment fewer first last := by
  generalize whole : letter :: last = target at aligned
  induction aligned with
  | done => cases whole
  | keep letter rest =>
    obtain ⟨rfl, rfl⟩ := cons.inj whole
    exact ⟨_, le_rfl, rest.delete letter⟩
  | replace old new rest =>
    obtain ⟨rfl, rfl⟩ := cons.inj whole
    exact ⟨_, by omega, rest.delete old⟩
  | insert new rest =>
    obtain ⟨rfl, rfl⟩ := cons.inj whole
    exact ⟨_, by omega, rest⟩
  | delete old rest ih =>
    obtain ⟨fewer, within, shorter⟩ := ih whole
    exact ⟨fewer + 1, by omega, shorter.delete old⟩

/-- Another first target character costs at most one edit. -/
theorem Alignment.changeTarget (aligned : Alignment count first (letter :: last)) (new : α) :
    ∃ fewer ≤ count + 1, Alignment fewer first (new :: last) := by
  generalize whole : letter :: last = target at aligned
  induction aligned with
  | done => cases whole
  | keep letter rest =>
    obtain ⟨rfl, rfl⟩ := cons.inj whole
    exact ⟨_, le_rfl, rest.replace letter new⟩
  | replace old _ rest =>
    obtain ⟨rfl, rfl⟩ := cons.inj whole
    exact ⟨_, by omega, rest.replace old new⟩
  | insert _ rest =>
    obtain ⟨rfl, rfl⟩ := cons.inj whole
    exact ⟨_, by omega, rest.insert new⟩
  | delete old rest ih =>
    obtain ⟨fewer, within, shorter⟩ := ih whole
    exact ⟨fewer + 1, by omega, shorter.delete old⟩

/-- An edit of the target costs an alignment at most one edit more. -/
theorem Alignment.edit (aligned : Alignment count first second) (edit : Edit second last) :
    ∃ fewer ≤ count + 1, Alignment fewer first last := by
  cases edit with
  | insert front back letter =>
    obtain ⟨left, right, early, late, rfl, rfl, begun, ended⟩ := aligned.split
    exact ⟨_, by omega, begun.append (ended.insert letter)⟩
  | delete front back letter =>
    obtain ⟨left, right, early, late, rfl, rfl, begun, ended⟩ := aligned.split
    obtain ⟨fewer, within, shorter⟩ := ended.dropTarget
    exact ⟨_, by omega, begun.append shorter⟩
  | replace front back old new =>
    obtain ⟨left, right, early, late, rfl, rfl, begun, ended⟩ := aligned.split
    obtain ⟨fewer, within, shorter⟩ := ended.changeTarget new
    exact ⟨_, by omega, begun.append shorter⟩

theorem Edits.alignment (script : Edits count first last) : ∃ fewer ≤ count, Alignment fewer first last := by
  induction script with
  | done text => exact ⟨0, le_rfl, .refl text⟩
  | step _ edit ih =>
    obtain ⟨fewer, within, aligned⟩ := ih
    obtain ⟨next, bound, further⟩ := aligned.edit edit
    exact ⟨next, by omega, further⟩

theorem Edit.cons (edit : Edit first last) (letter : α) : Edit (letter :: first) (letter :: last) := by
  cases edit with
  | insert front back new => exact .insert (letter :: front) back new
  | delete front back old => exact .delete (letter :: front) back old
  | replace front back old new => exact .replace (letter :: front) back old new

theorem Edits.cons (script : Edits count first last) (letter : α) : Edits count (letter :: first) (letter :: last) := by
  induction script with
  | done text => exact .done _
  | step _ edit ih => exact ih.step (edit.cons letter)

theorem Alignment.edits (aligned : Alignment count first last) : Edits count first last := by
  induction aligned with
  | done => exact .done []
  | keep letter _ ih => exact ih.cons letter
  | replace old new _ ih => exact (ih.cons old).step (.replace [] _ old new)
  | insert new _ ih => exact ih.step (.insert [] _ new)
  | delete old _ ih => exact (ih.cons old).step (.delete [] _ old)

theorem Alignment.toNil (first : List α) : Alignment first.length first [] := by
  induction first with
  | nil => exact .done
  | cons letter rest ih => exact ih.delete letter

/-- Every pair of texts is aligned by deleting one and inserting the other. -/
theorem Alignment.exchange (first last : List α) : Alignment (first.length + last.length) first last := by
  simpa using (Alignment.toNil first).append (Alignment.toNil last).symm

theorem Alignment.length_gap (aligned : Alignment count first last) :
    first.length ≤ last.length + count ∧ last.length ≤ first.length + count := by
  induction aligned with
  | done => simp
  | keep letter _ ih => exact ⟨by grind, by grind⟩
  | replace old new _ ih => exact ⟨by grind, by grind⟩
  | insert new _ ih => exact ⟨by grind, by grind⟩
  | delete old _ ih => exact ⟨by grind, by grind⟩

/-- The first characters are kept, replaced, inserted, or deleted. -/
theorem Alignment.cons_cases {old : α} (aligned : Alignment count (old :: first) (new :: last)) :
    (old = new ∧ Alignment count first last) ∨
      ∃ fewer, count = fewer + 1 ∧
        (Alignment fewer first last ∨ Alignment fewer (old :: first) last ∨ Alignment fewer first (new :: last)) := by
  cases aligned with
  | keep _ rest => exact .inl ⟨rfl, rest⟩
  | replace _ _ rest => exact .inr ⟨_, rfl, .inl rest⟩
  | insert _ rest => exact .inr ⟨_, rfl, .inr (.inl rest)⟩
  | delete _ rest => exact .inr ⟨_, rfl, .inr (.inr rest)⟩

/-- An alignment ends by the same item twice or by an edit. -/
theorem Alignment.snoc_cases {old : α} (aligned : Alignment count (first ++ [old]) (last ++ [new])) :
    (old = new ∧ Alignment count first last) ∨
      ∃ fewer, count = fewer + 1 ∧
        (Alignment fewer first last ∨ Alignment fewer (first ++ [old]) last ∨
          Alignment fewer first (last ++ [new])) := by
  have reversed := aligned.reverse
  simp only [reverse_append, reverse_singleton, singleton_append] at reversed
  rcases reversed.cons_cases with ⟨same, rest⟩ | ⟨fewer, rfl, replaced | inserted | deleted⟩
  · exact .inl ⟨same, by simpa using rest.reverse⟩
  · exact .inr ⟨fewer, rfl, .inl (by simpa using replaced.reverse)⟩
  · exact .inr ⟨fewer, rfl, .inr (.inl (by simpa using inserted.reverse))⟩
  · exact .inr ⟨fewer, rfl, .inr (.inr (by simpa using deleted.reverse))⟩

end Alignments

section Distance

variable {limit : Nat} {first last : List α}

/-- A distance within the limit is an alignment within the limit. -/
theorem levenshtein_le_iff : levenshtein first last ≤ limit ↔ ∃ count ≤ limit, Alignment count first last := by
  constructor
  · intro within
    have shortest : levenshtein first last ∈ {count | Edits count first last} :=
      Nat.sInf_mem ⟨_, (Alignment.exchange first last).edits⟩
    obtain ⟨count, bound, aligned⟩ := Edits.alignment shortest
    exact ⟨count, bound.trans within, aligned⟩
  · intro ⟨count, within, aligned⟩
    exact (Nat.sInf_le aligned.edits).trans within

theorem exists_alignment (first last : List α) : ∃ count ≤ levenshtein first last, Alignment count first last :=
  levenshtein_le_iff.mp le_rfl

theorem levenshtein_self (text : List α) : levenshtein text text = 0 :=
  Nat.le_zero.mp (levenshtein_le_iff.mpr ⟨0, le_rfl, .refl text⟩)

theorem levenshtein_length_gap (first last : List α) :
    first.length ≤ last.length + levenshtein first last ∧ last.length ≤ first.length + levenshtein first last := by
  obtain ⟨count, within, aligned⟩ := exists_alignment first last
  have gap := aligned.length_gap
  exact ⟨by omega, by omega⟩

theorem levenshtein_nil_left (last : List α) : levenshtein [] last = last.length := by
  have gap := (levenshtein_length_gap [] last).2
  have within : levenshtein [] last ≤ last.length :=
    levenshtein_le_iff.mpr ⟨_, le_rfl, (Alignment.toNil last).symm⟩
  simp only [length_nil] at gap
  omega

theorem levenshtein_nil_right (first : List α) : levenshtein first [] = first.length := by
  have gap := (levenshtein_length_gap first []).1
  have within : levenshtein first [] ≤ first.length := levenshtein_le_iff.mpr ⟨_, le_rfl, .toNil first⟩
  simp only [length_nil] at gap
  omega

/-- The last characters are kept or replaced, or one of them is inserted or deleted. -/
theorem levenshtein_snoc [DecidableEq α] (first last : List α) (old new : α) :
    levenshtein (first ++ [old]) (last ++ [new]) =
      min (min (levenshtein (first ++ [old]) last + 1) (levenshtein first (last ++ [new]) + 1))
        (levenshtein first last + if old = new then 0 else 1) := by
  apply le_antisymm
  · refine le_min (le_min ?_ ?_) ?_
    · obtain ⟨count, within, aligned⟩ := exists_alignment (first ++ [old]) last
      refine levenshtein_le_iff.mpr ⟨count + 1, by omega, ?_⟩
      simpa using aligned.append (.insert new .done)
    · obtain ⟨count, within, aligned⟩ := exists_alignment first (last ++ [new])
      refine levenshtein_le_iff.mpr ⟨count + 1, by omega, ?_⟩
      simpa using aligned.append (.delete old .done)
    · obtain ⟨count, within, aligned⟩ := exists_alignment first last
      by_cases same : old = new
      · subst same
        refine levenshtein_le_iff.mpr ⟨count, by simpa using within, ?_⟩
        simpa using aligned.append (.keep old .done)
      · refine levenshtein_le_iff.mpr ⟨count + 1, by simpa [same] using within, ?_⟩
        simpa using aligned.append (.replace old new .done)
  · obtain ⟨count, within, aligned⟩ := exists_alignment (first ++ [old]) (last ++ [new])
    refine le_trans ?_ within
    rcases aligned.snoc_cases with ⟨rfl, kept⟩ | ⟨fewer, rfl, replaced | inserted | deleted⟩
    · have below := levenshtein_le_iff.mpr ⟨count, le_rfl, kept⟩
      simp only [if_true]
      omega
    · have below := levenshtein_le_iff.mpr ⟨fewer, le_rfl, replaced⟩
      split <;> omega
    · have below := levenshtein_le_iff.mpr ⟨fewer, le_rfl, inserted⟩
      omega
    · have below := levenshtein_le_iff.mpr ⟨fewer, le_rfl, deleted⟩
      omega

/-- A shortest script for a longer text passes some prefix of the target. -/
theorem levenshtein_prefix (first more last : List α) :
    ∃ front back, last = front ++ back ∧ levenshtein first front ≤ levenshtein (first ++ more) last := by
  obtain ⟨count, within, aligned⟩ := exists_alignment (first ++ more) last
  obtain ⟨front, back, early, late, whole, total, begun, -⟩ := aligned.symm.split
  exact ⟨front, back, whole, levenshtein_le_iff.mpr ⟨early, by omega, begun.symm⟩⟩

end Distance

end EditScripts
