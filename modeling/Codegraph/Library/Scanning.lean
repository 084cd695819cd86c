import Mathlib.Data.List.Forall2

/- This file reads a text piece by piece and writes every piece back in its place. -/

namespace Scanning
open List

variable {σ : Type*} {text out rest masked first second firstOut secondOut : List Char} {c d : Char} {s t : σ}

/-- The white space of the character database. -/
def isWhitespace (c : Char) : Bool :=
  let code := c.toNat
  (9 ≤ code && code ≤ 13) || code = 0x20 || code = 0x85 || code = 0xA0 || code = 0x1680 ||
    (0x2000 ≤ code && code ≤ 0x200A) || code = 0x2028 || code = 0x2029 || code = 0x202F || code = 0x205F || code =
      0x3000

section Masking

/-- A masked text has the same characters or spaces in their places, and the same line ends. -/
def Masks : List Char → List Char → Prop := List.Forall₂ fun c d => d = c ∨ d = ' ' ∧ c ≠ '\n'

theorem Masks.refl (text : List Char) : Masks text text := forall₂_same.mpr fun _ _ => .inl rfl

theorem Masks.append (left : Masks first firstOut) (right : Masks second secondOut) :
    Masks (first ++ second) (firstOut ++ secondOut) := rel_append left right

theorem Masks.length (masks : Masks text out) : out.length = text.length := (List.Forall₂.length_eq masks).symm

theorem Masks.get {index : Nat} (masks : Masks text out) (found : out[index]? = some d) :
    ∃ c, text[index]? = some c ∧ (d = c ∨ d = ' ' ∧ c ≠ '\n') := by
  induction masks generalizing index with
  | nil => simp at found
  | cons related _ ih =>
    cases index with
    | zero =>
      obtain rfl := Option.some.inj found
      exact ⟨_, rfl, related⟩
    | succ index => exact ih found

theorem Masks.newline {index : Nat} (masks : Masks text out) (found : text[index]? = some '\n') :
    out[index]? = some '\n' := by
  have inside : index < out.length := masks.length ▸ (List.getElem?_eq_some_iff.mp found).1
  obtain ⟨c, same, related⟩ := masks.get (getElem?_eq_getElem inside)
  obtain rfl := Option.some.inj (found.symm.trans same)
  rcases related with kept | ⟨-, other⟩
  · rw [getElem?_eq_getElem inside, kept]
  · exact absurd rfl other

/-- What a masked text starts with, the text starts with, unless it is a space. -/
theorem Masks.isPrefix {needle : List Char} (masks : Masks text out) (solid : ' ' ∉ needle) (starts : needle <+: out) :
    needle <+: text := by
  induction needle generalizing text out with
  | nil => exact nil_prefix
  | cons x needle ih =>
    cases masks with
    | nil => exact absurd (prefix_nil.mp starts) (by simp)
    | cons related masks =>
      obtain ⟨rfl, later⟩ := cons_prefix_cons.mp starts
      obtain ⟨notSpace, solid⟩ := ne_and_not_mem_of_not_mem_cons solid
      rcases related with rfl | ⟨space, -⟩
      · exact cons_prefix_cons.mpr ⟨rfl, ih masks solid later⟩
      · exact absurd space.symm notSpace

def blank (text : List Char) : List Char := text.map fun c => if c = '\n' then '\n' else ' '

theorem masks_blank (text : List Char) : Masks text (blank text) := by
  refine forall₂_map_right_iff.mpr (forall₂_same.mpr fun c _ => ?_)
  split
  · exact .inl (.symm ‹_›)
  · exact .inr ⟨rfl, ‹_›⟩

/-- The characters of a text keep their places, some of them as spaces, and so do its line breaks. -/
structure KeepsGrid (text out : List Char) : Prop where
  length : out.length = text.length
  chars : ∀ (index : Nat) (d : Char), out[index]? = some d → text[index]? = some d ∨ d = ' '
  newlines : ∀ index : Nat, out[index]? = some '\n' ↔ text[index]? = some '\n'

theorem Masks.keepsGrid (masks : Masks text out) : KeepsGrid text out where
  length := masks.length
  chars index d found := by
    obtain ⟨c, same, rfl | ⟨space, -⟩⟩ := masks.get found
    · exact .inl same
    · exact .inr space
  newlines index := by
    refine ⟨fun found => ?_, masks.newline⟩
    obtain ⟨c, same, rfl | ⟨space, -⟩⟩ := masks.get found
    · exact same
    · exact absurd space (by decide)

theorem KeepsGrid.masks (keeps : KeepsGrid text out) : Masks text out := by
  refine forall₂_iff_get.mpr ⟨keeps.length.symm, fun index inText inOut => ?_⟩
  have here : out[index]? = some out[index] := getElem?_eq_getElem inOut
  have there : text[index]? = some text[index] := getElem?_eq_getElem inText
  rw [get_eq_getElem, get_eq_getElem]
  rcases keeps.chars index _ here with same | space
  · exact .inl (Option.some.inj (same.symm.trans there))
  · refine .inr ⟨space, fun newline => ?_⟩
    have found := (keeps.newlines index).mpr (there.trans (congrArg some newline))
    rw [here, space] at found
    exact absurd found (by decide)

end Masking

section Advancing

/-- A loop over characters stops at one, or goes on behind one or two of them. -/
inductive Advance (σ : Type*) where
  | stop
  | one (next : σ)
  | two (next : σ)

variable (step : σ → Char → Option Char → Advance σ)

/-- How far the loop goes before it stops. The second of two characters may lie behind the end. -/
def advance : σ → List Char → Nat
  | _, [] => 0
  | s, [c] => match step s c none with
    | .stop => 0
    | .one _ => 1
    | .two _ => 2
  | s, c :: d :: rest => match step s c (some d) with
    | .stop => 0
    | .one next => advance next (d :: rest) + 1
    | .two next => advance next rest + 2

theorem advance_cons (s : σ) (c : Char) (rest : List Char) : advance step s (c :: rest) = match step s c rest.head? with
      | .stop => 0
      | .one next => advance step next rest + 1
      | .two next => advance step next rest.tail + 2 := by
  cases rest with
  | nil =>
    rw [advance, head?_nil]
    cases step s c none <;> rfl
  | cons d rest =>
    rw [advance, head?_cons]
    rfl

variable {step}

/-- Where the loop stops inside the text, its step stops. -/
theorem advance_stops (inside : text[advance step s text]? = some c) :
    ∃ state, step state c text[advance step s text + 1]? = .stop := by
  induction s, text using advance.induct step with
  | case1 => simp at inside
  | case2 s x stops =>
    rw [advance, stops] at inside ⊢
    obtain rfl := Option.some.inj inside
    exact ⟨s, stops⟩
  | case3 s x next goes => simp [advance, goes] at inside
  | case4 s x next goes => simp [advance, goes] at inside
  | case5 s x y rest stops =>
    rw [advance, stops] at inside ⊢
    obtain rfl := Option.some.inj inside
    exact ⟨s, stops⟩
  | case6 s x y rest next goes ih =>
    rw [advance, goes] at inside ⊢
    exact ih inside
  | case7 s x y rest next goes ih =>
    rw [advance, goes] at inside ⊢
    exact ih inside

/-- A loop that never goes on behind two characters at the end stays inside the text. -/
theorem advance_le (single : ∀ s c next, step s c none ≠ .two next) (s : σ) (text : List Char) :
    advance step s text ≤ text.length := by
  induction s, text using advance.induct step with
  | case1 => exact Nat.le_refl 0
  | case2 s x stops => simp [advance, stops]
  | case3 s x next goes => simp [advance, goes]
  | case4 s x next goes => exact absurd goes (single s x next)
  | case5 s x y rest stops => simp [advance, stops]
  | case6 s x y rest next goes ih =>
    rw [advance, goes]
    exact Nat.succ_le_succ ih
  | case7 s x y rest next goes ih =>
    rw [advance, goes]
    exact Nat.add_le_add_right ih 2

theorem isSome_head? (length : out.length = text.length) : out.head?.isSome = text.head?.isSome := by
  cases out with
  | nil => rw [eq_nil_of_length_eq_zero length.symm]
  | cons =>
    cases text with
    | nil => cases length
    | cons => rfl

/-- The loop goes as far in a text that is the same up to the character where it stops. -/
theorem advance_agree
    (blind : ∀ s c (first second : Option Char), first.isSome = second.isSome → step s c first = step s c second)
    (length : out.length = text.length)
    (same : out.take (advance step s text + 1) = text.take (advance step s text + 1)) :
    advance step s out = advance step s text := by
  induction size : text.length using Nat.strongRecOn generalizing s text out with
  | ind size ih =>
    cases text with
    | nil => rw [eq_nil_of_length_eq_zero length]
    | cons c rest =>
      obtain ⟨x, after, rfl⟩ := exists_cons_of_length_eq_add_one length
      have tails : after.length = rest.length := Nat.succ.inj length
      have first : x = c := by
        rw [take_succ_cons, take_succ_cons] at same
        exact (cons.inj same).1
      subst first
      rw [advance_cons] at same
      rw [advance_cons, advance_cons, blind s x _ _ (isSome_head? tails)]
      cases goes : step s x rest.head? with
      | stop => rfl
      | one next =>
        rw [goes] at same
        have same := (cons.inj same).2
        exact congrArg (· + 1) (ih rest.length (by simp [← size]) tails same rfl)
      | two next =>
        rw [goes] at same
        have same := (cons.inj same).2
        cases rest with
        | nil => rw [eq_nil_of_length_eq_zero tails]
        | cons d rest =>
          obtain ⟨y, after, rfl⟩ := exists_cons_of_length_eq_add_one tails
          exact congrArg (· + 2) (ih rest.length (by simp only [← size, length_cons]; omega)
            (Nat.succ.inj tails) (cons.inj same).2 rfl)

end Advancing

section Pieces

/-- A piece reaches over `length` characters behind its first one. -/
structure Piece (σ : Type*) where
  length : Nat
  written : List Char
  next : σ

def Piece.keep (length : Nat) (c : Char) (rest : List Char) (next : σ) : Piece σ :=
  ⟨length, c :: rest.take length, next⟩

def Piece.blanked (length : Nat) (c : Char) (rest : List Char) (next : σ) : Piece σ :=
  ⟨length, blank (c :: rest.take length), next⟩

abbrev Reader (σ : Type*) := σ → Char → List Char → Piece σ

/-- Every piece is written in the place of the text that it reaches over. -/
def scan (read : Reader σ) (state : σ) : List Char → List Char
  | [] => []
  | c :: rest =>
    let piece := read state c rest
    piece.written ++ scan read piece.next (rest.drop piece.length)
termination_by text => text.length
decreasing_by simp only [List.length_drop, List.length_cons]; omega

/-- The texts of the pieces, each with what is written for it. -/
def pieces (read : Reader σ) (state : σ) : List Char → List (List Char × List Char)
  | [] => []
  | c :: rest =>
    let piece := read state c rest
    (c :: rest.take piece.length, piece.written) :: pieces read piece.next (rest.drop piece.length)
termination_by text => text.length
decreasing_by simp only [List.length_drop, List.length_cons]; omega

variable {read : Reader σ}

@[simp] theorem scan_nil : scan read s [] = [] := by rw [scan]

theorem scan_cons : scan read s (c :: rest) =
    (read s c rest).written ++ scan read (read s c rest).next (rest.drop (read s c rest).length) := by rw [scan]

@[simp] theorem pieces_nil : pieces read s [] = [] := by rw [pieces]

theorem pieces_cons : pieces read s (c :: rest) =
    (c :: rest.take (read s c rest).length, (read s c rest).written) ::
      pieces read (read s c rest).next (rest.drop (read s c rest).length) := by rw [pieces]

theorem drop_shorter (rest : List Char) (count : Nat) : (rest.drop count).length < (c :: rest).length := by
  simp only [length_drop, length_cons]
  omega

theorem cons_split (c : Char) (rest : List Char) (count : Nat) :
    c :: rest = (c :: rest.take count) ++ rest.drop count := by
  rw [cons_append, take_append_drop]

theorem masks_append_iff (same : firstOut.length = first.length) :
    Masks (first ++ second) (firstOut ++ secondOut) ↔ Masks first firstOut ∧ Masks second secondOut := by
  refine ⟨fun masks => ⟨?_, ?_⟩, fun both => both.1.append both.2⟩
  · have taken := forall₂_take first.length masks
    rwa [take_left, ← same, take_left] at taken
  · have dropped := forall₂_drop first.length masks
    rwa [drop_left, ← same, drop_left] at dropped

/-- A scan masks its text exactly when it masks every piece of it. -/
theorem masks_scan_iff
    (lengths : ∀ s c rest, (read s c rest).written.length = (c :: rest.take (read s c rest).length).length) :
    Masks text (scan read s text) ↔ ∀ piece ∈ pieces read s text, Masks piece.1 piece.2 := by
  induction size : text.length using Nat.strongRecOn generalizing s text with
  | ind size ih =>
    cases text with
    | nil => simp [Masks.refl]
    | cons c rest =>
      rw [scan_cons, pieces_cons, forall_mem_cons, cons_split c rest (read s c rest).length,
        masks_append_iff (lengths s c rest), ih _ (size ▸ drop_shorter rest _) rfl]

theorem mem_pieces {piece : List Char × List Char} (member : piece ∈ pieces read s text) :
    ∃ state c rest, piece = (c :: rest.take (read state c rest).length, (read state c rest).written) := by
  induction size : text.length using Nat.strongRecOn generalizing s text with
  | ind size ih =>
    cases text with
    | nil => simp at member
    | cons c rest =>
      rw [pieces_cons] at member
      rcases mem_cons.mp member with rfl | later
      · exact ⟨s, c, rest, rfl⟩
      · exact ih _ (size ▸ drop_shorter rest _) later rfl

end Pieces

section Rescanning

/-- A reader keeps a piece, and keeps it again when the text behind it is masked. `Follows` relates the state of the
first scan to that of the second. -/
structure Keeps (read : Reader σ) (Follows : σ → σ → List Char → Prop) (s : σ) (c : Char) (rest : List Char) :
    Prop where
  kept : read s c rest = .keep (read s c rest).length c rest (read s c rest).next
  again : ∀ t masked, Follows s t (c :: rest) → Masks rest masked →
    masked.take (read s c rest).length = rest.take (read s c rest).length →
    ∃ next, read t c masked = .keep (read s c rest).length c masked next ∧
      Follows (read s c rest).next next (rest.drop (read s c rest).length)

/-- A reader blanks a piece, and the second scan reads the blanks one by one. -/
structure Blanks (read : Reader σ) (Follows : σ → σ → List Char → Prop) (afterBlank : σ → Char → σ) (s : σ) (c : Char)
    (rest : List Char) : Prop where
  blanked : read s c rest = .blanked (read s c rest).length c rest (read s c rest).next
  follows : ∀ t, Follows s t (c :: rest) →
    Follows (read s c rest).next ((blank (c :: rest.take (read s c rest).length)).foldl afterBlank t)
      (rest.drop (read s c rest).length)

/-- Scanning a masked text again finds what was found in the text. -/
structure Rescans (read : Reader σ) (Follows : σ → σ → List Char → Prop) (afterBlank : σ → Char → σ) : Prop where
  treats : ∀ s c rest, Keeps read Follows s c rest ∨ Blanks read Follows afterBlank s c rest
  readsBlank : ∀ s c rest, c = ' ' ∨ c = '\n' → read s c rest = .keep 0 c rest (afterBlank s c)

variable {read : Reader σ} {Follows : σ → σ → List Char → Prop} {afterBlank : σ → Char → σ}

theorem Rescans.masks (rescans : Rescans read Follows afterBlank) (s : σ) (text : List Char) :
    Masks text (scan read s text) := by
  refine (masks_scan_iff fun s c rest => ?_).mpr fun piece member => ?_
  · rcases rescans.treats s c rest with keeps | blanks
    · rw [keeps.kept]
      rfl
    · rw [blanks.blanked]
      exact length_map _
  · obtain ⟨state, c, rest, rfl⟩ := mem_pieces member
    rcases rescans.treats state c rest with keeps | blanks
    · rw [keeps.kept]
      exact .refl _
    · rw [blanks.blanked]
      exact masks_blank _

/-- Blanks are read back as they stand. -/
theorem Rescans.scan_blank (rescans : Rescans read Follows afterBlank) (s : σ) (chunk rest : List Char) :
    scan read s (blank chunk ++ rest) = blank chunk ++ scan read ((blank chunk).foldl afterBlank s) rest := by
  induction chunk generalizing s with
  | nil => rfl
  | cons c chunk ih =>
    have blankChar : (if c = '\n' then '\n' else ' ') = ' ' ∨ (if c = '\n' then '\n' else ' ') = '\n' := by
      split
      · exact .inr rfl
      · exact .inl rfl
    rw [blank, map_cons, cons_append, scan_cons, rescans.readsBlank s _ _ blankChar]
    exact congrArg ((if c = '\n' then '\n' else ' ') :: ·) (ih _)

/-- A text with a new end is cut where the old one was. -/
theorem take_rejoin {count : Nat} (same : out.length = (rest.drop count).length) :
    (rest.take count ++ out).take count = rest.take count ∧ (rest.take count ++ out).drop count = out := by
  rcases Nat.le_total count rest.length with inside | outside
  · have full : (rest.take count).length = count := length_take_of_le inside
    exact ⟨take_left' full, drop_left' full⟩
  · have none : out = [] := eq_nil_of_length_eq_zero (by simp [same, outside])
    rw [none, append_nil, take_of_length_le outside]
    exact ⟨take_of_length_le outside, drop_of_length_le outside⟩

/-- A second scan changes nothing. -/
theorem Rescans.scan_scan (rescans : Rescans read Follows afterBlank) (follows : Follows s t text) :
    scan read t (scan read s text) = scan read s text := by
  induction size : text.length using Nat.strongRecOn generalizing s t text with
  | ind size ih =>
    cases text with
    | nil => simp
    | cons c rest =>
      have again {next : σ} (later : Follows (read s c rest).next next (rest.drop (read s c rest).length)) :=
        ih _ (size ▸ drop_shorter rest (read s c rest).length) later rfl
      have masks := rescans.masks (read s c rest).next (rest.drop (read s c rest).length)
      rw [scan_cons]
      generalize scan read (read s c rest).next (rest.drop (read s c rest).length) = out at again masks
      rcases rescans.treats s c rest with keeps | blanks
      · obtain ⟨taken, dropped⟩ := take_rejoin masks.length
        have whole : Masks rest (rest.take (read s c rest).length ++ out) := by
          conv_lhs => rw [← take_append_drop (read s c rest).length rest]
          exact (Masks.refl _).append masks
        obtain ⟨next, reads, later⟩ := keeps.again t _ follows whole taken
        have written : (read s c rest).written = c :: rest.take (read s c rest).length :=
          congrArg Piece.written keeps.kept
        rw [written, cons_append, scan_cons, reads, Piece.keep, taken, dropped, again later]
        rfl
      · have written : (read s c rest).written = blank (c :: rest.take (read s c rest).length) :=
          congrArg Piece.written blanks.blanked
        rw [written, rescans.scan_blank, again (blanks.follows t follows)]

end Rescanning

end Scanning
