import Codegraph.Cpp.BraceScopes
import Mathlib.Data.List.Sublists

/- This file shows for which sources the scan closes the braces of the configuration that takes each first branch. -/

namespace Codegraph.Cpp.BraceScopes
open Brackets Utf8 List
open CodeClasses (byteAt isAsciiDigit)

section Tokens

def tokensFrom (source : List Char) (cursor : Cursor) : List Token :=
  if cursor.at_ < source.length then
    let read := readToken source cursor
    read.1.toList ++ tokensFrom source read.2
  else []
termination_by source.length - cursor.at_
decreasing_by
  have further := @lt_readToken source _ ‹_›
  omega

def tokens (text : List Char) : List Token := tokensFrom (units text) (firstCursor (units text))

def Token.bracket : Token → Option (Bracket Nat)
  | .opening at_ => some (.opening at_)
  | .closing at_ => some (.closing at_)
  | .directive _ => none
  | .namespaceHead _ _ => none

/-- The code braces of a source, those of every branch among them. -/
def braces (tokens : List Token) : List (Bracket Nat) := tokens.filterMap Token.bracket

def place : Bracket Nat → Nat
  | .opening at_ => at_
  | .closing at_ => at_

variable {source : List Char} {cursor : Cursor} {scan : Scan}

theorem scanFrom_eq (source : List Char) (cursor : Cursor) (scan : Scan) :
    scanFrom source cursor scan = (tokensFrom source cursor).foldl Scan.read scan := by
  fun_induction scanFrom source cursor scan with
  | case1 cursor scan inside read ih =>
    rw [tokensFrom, if_pos inside, foldl_append, ih]
    show foldl .read (read.1.elim scan scan.read) _ =
      foldl .read (read.1.toList.foldl .read scan) _
    cases read.1 <;> rfl
  | case2 cursor scan outside => rw [tokensFrom, if_neg outside, foldl_nil]

theorem place_readToken {token : Token} {bracket : Bracket Nat} (reads : (readToken source cursor).1 = some token)
    (brace : token.bracket = some bracket) : place bracket = cursor.at_ := by
  revert reads
  fun_cases readToken source cursor with
  | case9 =>
    intro reads
    obtain ⟨head, -, rfl⟩ := Option.map_eq_some_iff.mp reads
    cases brace
  | case5 =>
    rintro ⟨⟩
    cases brace
  | case10 =>
    rintro ⟨⟩
    obtain rfl := Option.some.inj brace
    rfl
  | case11 =>
    rintro ⟨⟩
    obtain rfl := Option.some.inj brace
    rfl
  | _ => rintro ⟨⟩

/-- Each brace stands behind the ones before it. -/
theorem braces_increase (source : List Char) (cursor : Cursor) :
    (∀ bracket ∈ braces (tokensFrom source cursor), cursor.at_ ≤ place bracket) ∧
      (braces (tokensFrom source cursor)).Pairwise fun first second => place first < place second := by
  fun_induction tokensFrom source cursor with
  | case1 cursor inside read ih =>
    have further : cursor.at_ < read.2.at_ := lt_readToken inside
    have here : ∀ bracket ∈ braces read.1.toList, place bracket = cursor.at_ := by
      intro bracket member
      obtain ⟨token, listed, brace⟩ := mem_filterMap.mp member
      exact place_readToken (Option.mem_toList.mp listed) brace
    have alone : (braces read.1.toList).Pairwise fun first second => place first < place second := by
      cases read.1 with
      | none => exact .nil
      | some token =>
        cases token <;> first | exact .nil | exact pairwise_singleton _ _
    rw [braces, filterMap_append, ← braces, ← braces]
    refine ⟨fun bracket member => ?_, pairwise_append.mpr ⟨alone, ih.2, fun first before second behind => ?_⟩⟩
    · rcases mem_append.mp member with now | later
      · exact Nat.le_of_eq (here bracket now).symm
      · exact Nat.le_trans (Nat.le_of_lt further) (ih.1 bracket later)
    · have least := ih.1 second behind
      rw [here first before]
      omega
  | case2 => exact ⟨fun _ member => absurd member not_mem_nil, .nil⟩

theorem openings_once (text : List Char) : (openings (braces (tokens text))).Nodup := by
  have ordered := (braces_increase (units text) (firstCursor (units text))).2
  refine List.Pairwise.filterMap _ (fun first second before a opened b other => ?_) ordered
  cases first <;> cases second <;> cases opened <;> cases other
  exact Nat.ne_of_lt before

end Tokens

section Readings

/-- The braces that the configuration has, and for each open group whether a later branch of it is read. -/
structure Chosen where
  braces : List (Bracket Nat) := []
  groups : List Bool := []

def Chosen.inLater (chosen : Chosen) : Bool := chosen.groups.any id

def Chosen.brace (chosen : Chosen) (bracket : Bracket Nat) : Chosen :=
  if chosen.inLater then chosen else { chosen with braces := chosen.braces ++ [bracket] }

def Chosen.directive (chosen : Chosen) (name : List Char) : Chosen :=
  if isIf name then { chosen with groups := false :: chosen.groups }
  else if isElse name then { chosen with groups := (chosen.groups.take 1).map (fun _ => true) ++ chosen.groups.drop 1 }
  else if isEndif name then { chosen with groups := chosen.groups.drop 1 }
  else chosen

def Chosen.read (chosen : Chosen) : Token → Chosen
  | .opening at_ => chosen.brace (.opening at_)
  | .closing at_ => chosen.brace (.closing at_)
  | .directive name => chosen.directive name
  | .namespaceHead _ _ => chosen

def chosen (tokens : List Token) : Chosen := tokens.foldl Chosen.read {}

/-- The braces of the configuration that takes the first branch of every group. -/
def firstBranches (tokens : List Token) : List (Bracket Nat) := (chosen tokens).braces

/-- The braces before a group, and those up to the end of its first branch once another one is read. -/
structure Group where
  atIf : List (Bracket Nat)
  afterFirst : Option (List (Bracket Nat)) := none

/-- The braces on the way to a place: the branch that the place is in of each open group, and the first one of the
others. -/
structure Path where
  here : List (Bracket Nat) := []
  groups : List Group := []

def Path.readElse (path : Path) : Path :=
  match path.groups with
  | [] => path
  | group :: outer =>
    { here := group.atIf, groups := { group with afterFirst := some (group.afterFirst.getD path.here) } :: outer }

def Path.readEndif (path : Path) : Path :=
  match path.groups with
  | [] => path
  | group :: outer => { here := group.afterFirst.getD path.here, groups := outer }

def Path.directive (path : Path) (name : List Char) : Path :=
  if isIf name then { path with groups := { atIf := path.here } :: path.groups }
  else if isElse name then path.readElse
  else if isEndif name then path.readEndif
  else path

def Path.read (path : Path) : Token → Path
  | .opening at_ => { path with here := path.here ++ [.opening at_] }
  | .closing at_ => { path with here := path.here ++ [.closing at_] }
  | .directive name => path.directive name
  | .namespaceHead _ _ => path

def path (tokens : List Token) : Path := tokens.foldl Path.read {}

/-- No closing brace on any way lacks its opening one, and the last way leaves none open. -/
def Accepted (tokens : List Token) : Prop :=
  (∀ front back, tokens = front ++ back → (pending (path front).here).isSome) ∧ pending (path tokens).here = some []

/-- A closing brace of a later branch closes one that the configuration has open there. -/
def ClosesKept (front : List Token) (at_ : Nat) : Prop :=
  (chosen front).inLater ∧ ∃ open_ stack, Matches ((path front).here ++ [.closing at_]) open_ at_ ∧
    pending (firstBranches front) = some stack ∧ open_ ∈ stack

/-- No later branch closes a brace that the first branches leave open. -/
def KeepsFirst (tokens : List Token) : Prop :=
  ∀ front at_ back, tokens = front ++ .closing at_ :: back → ¬ ClosesKept front at_

variable {tokens front : List Token} {token : Token} {scan : Scan}

theorem path_concat (front : List Token) (token : Token) : path (front ++ [token]) = (path front).read token := by
  rw [path, foldl_append]
  rfl

theorem chosen_concat (front : List Token) (token : Token) : chosen (front ++ [token]) = (chosen front).read token := by
  rw [chosen, foldl_append]
  rfl

theorem braces_concat (front : List Token) (token : Token) :
    braces (front ++ [token]) = braces front ++ token.bracket.toList := by
  rw [braces, filterMap_append]
  cases token <;> rfl

/-- The braces on the way out of all groups, by the first branch of each one that has another. -/
def keptFrom (here : List (Bracket Nat)) (groups : List Group) : List (Bracket Nat) :=
  groups.foldl (fun kept group => group.afterFirst.getD kept) here

theorem keptFrom_first {groups : List Group} (here : List (Bracket Nat))
    (first : (groups.map (·.afterFirst.isSome)).any id = false) : keptFrom here groups = here := by
  induction groups generalizing here with
  | nil => rfl
  | cons group outer ih =>
    rw [map_cons, any_cons, Bool.or_eq_false_iff] at first
    have none : group.afterFirst = none := by simpa using first.1
    rw [keptFrom, foldl_cons, none]
    exact ih here first.2

theorem keptFrom_later {groups : List Group} (here other : List (Bracket Nat))
    (later : (groups.map (·.afterFirst.isSome)).any id = true) : keptFrom here groups = keptFrom other groups := by
  induction groups generalizing here other with
  | nil => cases later
  | cons group outer ih =>
    rw [keptFrom, keptFrom, foldl_cons, foldl_cons]
    cases after : group.afterFirst with
    | none =>
      rw [map_cons, any_cons, after] at later
      exact ih here other later
    | some kept => rfl

/-- The configuration is what the way back out of all groups has. -/
theorem chosen_eq (front : List Token) : firstBranches front = keptFrom (path front).here (path front).groups ∧
      (chosen front).groups = (path front).groups.map (·.afterFirst.isSome) := by
  induction front using reverseRecOn with
  | nil => exact ⟨rfl, rfl⟩
  | append_singleton front token ih =>
    rw [firstBranches, path_concat, chosen_concat]
    obtain ⟨kept, groups⟩ := ih
    rw [firstBranches] at kept
    have brace (bracket : Bracket Nat) : ((chosen front).brace bracket).braces =
        keptFrom ((path front).here ++ [bracket]) (path front).groups ∧
        ((chosen front).brace bracket).groups = (path front).groups.map (·.afterFirst.isSome) := by
      rw [Chosen.brace, Chosen.inLater, groups]
      split
      · rename_i later
        exact ⟨kept.trans (keptFrom_later _ _ later), groups⟩
      · rename_i first
        have none := Bool.eq_false_iff.mpr first
        rw [keptFrom_first _ none] at kept ⊢
        exact ⟨congrArg (· ++ [bracket]) kept, rfl⟩
    cases token with
    | opening at_ => exact brace (.opening at_)
    | closing at_ => exact brace (.closing at_)
    | namespaceHead => exact ⟨kept, groups⟩
    | directive name =>
      simp only [Chosen.read, Path.read, Chosen.directive, Path.directive, Path.readElse, Path.readEndif, groups]
      by_cases opens : isIf name
      · simp [opens, kept, keptFrom]
      by_cases turns : isElse name
      · cases inner : (path front).groups with
        | nil => simp_all
        | cons group outer => simp_all [keptFrom]
      by_cases ends : isEndif name
      · cases inner : (path front).groups with
        | nil => simp_all
        | cons group outer => simp_all [keptFrom]
      · simp [opens, turns, ends, kept, groups]

end Readings

section Agreement

/-- The stacks of a scan hold the open braces of the ways of a path. -/
structure Agrees (way : Path) (scan : Scan) : Prop where
  here : pending way.here = some scan.open_
  groups : List.Forall₂ (fun group branch => pending group.atIf = some branch.atIf ∧
    group.afterFirst.map pending = branch.afterFirst.map some) way.groups scan.branches

variable {way : Path} {scan : Scan} {group : Group} {branch : Branch} {at_ : Nat} {stack : List Nat}

theorem pending_getD {here : List (Bracket Nat)} (open' : pending here = some stack)
    (after : group.afterFirst.map pending = branch.afterFirst.map some) :
    pending (group.afterFirst.getD here) = some (branch.afterFirst.getD stack) := by
  cases first : group.afterFirst <;> cases second : branch.afterFirst <;> simp_all

/-- A directive keeps the scan in agreement with the branches taken. -/
theorem Agrees.directive (agrees : Agrees way scan) (name : List Char) :
    Agrees (way.directive name) (scan.readDirective name) := by
  obtain ⟨here, groups⟩ := agrees
  have all := groups
  unfold Path.directive Scan.readDirective
  split
  · exact ⟨here, .cons ⟨here, rfl⟩ groups⟩
  split
  · unfold Path.readElse Scan.readElse
    generalize way.groups = outer, scan.branches = branches at groups
    cases groups with
    | nil => exact ⟨here, all⟩
    | cons related outside =>
      exact ⟨related.1, .cons ⟨related.1, congrArg some (pending_getD here related.2)⟩ outside⟩
  split
  · unfold Path.readEndif Scan.readEndif
    generalize way.groups = outer, scan.branches = branches at groups
    cases groups with
    | nil => exact ⟨here, all⟩
    | cons related outside => exact ⟨pending_getD here related.2, outside⟩
  · exact ⟨here, groups⟩

theorem Agrees.opening (agrees : Agrees way scan) (at_ : Nat) :
    Agrees (way.read (.opening at_)) (scan.readOpening at_) := by
  obtain ⟨namespaceAt, pendingNamespace, same⟩ := scan.readOpening_eq at_
  rw [same]
  exact ⟨by rw [Path.read, pending_opening, agrees.here, Option.map_some], agrees.groups⟩

theorem Agrees.closing (agrees : Agrees way scan) (at_ : Nat) (balanced : (scan.readClosing at_).balanced) :
    Agrees (way.read (.closing at_)) (scan.readClosing at_) := by
  unfold Scan.readClosing at balanced ⊢
  split at balanced
  · cases balanced
  · rename_i start open_ stack
    exact ⟨pending_closing_iff.mpr ⟨start, stack ▸ agrees.here⟩, agrees.groups⟩

theorem balanced_of_read {token : Token} (balanced : (scan.read token).balanced) : scan.balanced := by
  cases token with
  | opening at_ =>
    obtain ⟨namespaceAt, pendingNamespace, same⟩ := scan.readOpening_eq at_
    rw [Scan.read, same] at balanced
    exact balanced
  | closing at_ =>
    simp only [Scan.read, Scan.readClosing] at balanced
    split at balanced
    · cases balanced
    · exact balanced
  | directive name => exact (scan.closes_readDirective name).2 ▸ balanced
  | namespaceHead => exact balanced

theorem Agrees.read (agrees : Agrees way scan) (token : Token) (balanced : (scan.read token).balanced) :
    Agrees (way.read token) (scan.read token) := by
  cases token with
  | opening at_ => exact agrees.opening at_
  | closing at_ => exact agrees.closing at_ balanced
  | directive name => exact agrees.directive name
  | namespaceHead => exact ⟨agrees.here, agrees.groups⟩

def scanned (tokens : List Token) : Scan := tokens.foldl Scan.read {}

theorem scanned_concat (front : List Token) (token : Token) :
    scanned (front ++ [token]) = (scanned front).read token := by
  rw [scanned, foldl_append]
  rfl

theorem balanced_front (front back : List Token) (balanced : (scanned (front ++ back)).balanced) :
    (scanned front).balanced := by
  induction back using reverseRecOn with
  | nil => rwa [append_nil] at balanced
  | append_singleton back token ih =>
    rw [← append_assoc, scanned_concat] at balanced
    exact ih (balanced_of_read balanced)

theorem agrees_path (front : List Token) (balanced : (scanned front).balanced) : Agrees (path front)
    (scanned front) := by
  induction front using reverseRecOn with
  | nil => exact ⟨rfl, .nil⟩
  | append_singleton front token ih =>
    rw [scanned_concat] at balanced ⊢
    rw [path_concat]
    exact (ih (balanced_of_read balanced)).read token balanced

/-- The scan stays balanced as long as no closing brace on the way lacks its opening one. -/
theorem balanced_of_pending (front : List Token)
    (open' : ∀ first back, front = first ++ back → (pending (path first).here).isSome) : (scanned front).balanced := by
  induction front using reverseRecOn with
  | nil => rfl
  | append_singleton front token ih =>
    have before := ih fun first back same => open' first (back ++ [token]) (by rw [same, append_assoc])
    have agrees := agrees_path front before
    have now := open' (front ++ [token]) [] (by simp)
    rw [path_concat] at now
    rw [scanned_concat]
    cases token with
    | opening at_ =>
      obtain ⟨namespaceAt, pendingNamespace, same⟩ := (scanned front).readOpening_eq at_
      rw [Scan.read, same]
      exact before
    | closing at_ =>
      obtain ⟨stack, same⟩ := Option.isSome_iff_exists.mp now
      obtain ⟨start, opened⟩ := pending_closing_iff.mp same
      rw [agrees.here] at opened
      rw [Scan.read, Scan.readClosing, Option.some.inj opened]
      exact before
    | directive name => exact ((scanned front).closes_readDirective name).2 ▸ before
    | namespaceHead => exact before

/-- The scan has a result exactly for the accepted sources. -/
theorem scan_isSome_iff (text : List Char) : (scanCppBraceScopes text).isSome ↔ Accepted (tokens text) := by
  have result : (scanCppBraceScopes text).isSome ↔
    (scanned (tokens text)).balanced ∧ (scanned (tokens text)).open_ = [] := by
    rw [scanCppBraceScopes, scanFrom_eq, ← tokens, ← scanned]
    cases (scanned (tokens text)).balanced <;> cases (scanned (tokens text)).open_ <;> simp
  rw [result]
  constructor
  · rintro ⟨balanced, closed⟩
    refine ⟨fun front back same => ?_, ?_⟩
    · rw [(agrees_path front (balanced_front front back (same ▸ balanced))).here]
      rfl
    · rw [(agrees_path _ balanced).here, closed]
  · rintro ⟨open', closed⟩
    have balanced := balanced_of_pending _ open'
    refine ⟨balanced, ?_⟩
    rw [(agrees_path _ balanced).here] at closed
    exact Option.some.inj closed

end Agreement

section Closings

/-- What a path holds are braces of the tokens, each at most once. -/
structure Within (way : Path) (all : List (Bracket Nat)) : Prop where
  here : way.here.Sublist all
  groups : ∀ group ∈ way.groups, group.atIf.Sublist all ∧ ∀ kept, group.afterFirst = some kept → kept.Sublist all

variable {way : Path} {all : List (Bracket Nat)} {front : List Token} {scan : Scan} {at_ : Nat} {stack : List Nat}

theorem Within.getD {group : Group} {here : List (Bracket Nat)} (inside : here.Sublist all)
    (after : ∀ kept, group.afterFirst = some kept → kept.Sublist all) : (group.afterFirst.getD here).Sublist all := by
  cases first : group.afterFirst with
  | none => exact inside
  | some kept => exact after kept first

theorem Within.directive (within : Within way all) (name : List Char) : Within (way.directive name) all := by
  have all' := within
  obtain ⟨here, groups⟩ := within
  unfold Path.directive
  split
  · exact ⟨here, forall_mem_cons.mpr ⟨⟨here, fun _ none => by cases none⟩, groups⟩⟩
  split
  · unfold Path.readElse
    split
    · exact all'
    · rename_i group outer inner
      rw [inner, forall_mem_cons] at groups
      exact ⟨groups.1.1, forall_mem_cons.mpr
        ⟨⟨groups.1.1, fun kept same => Option.some.inj same ▸ getD here groups.1.2⟩, groups.2⟩⟩
  split
  · unfold Path.readEndif
    split
    · exact all'
    · rename_i group outer inner
      rw [inner, forall_mem_cons] at groups
      exact ⟨getD here groups.1.2, groups.2⟩
  · exact all'

theorem Within.brace (within : Within way all) (bracket : Bracket Nat) :
    Within { way with here := way.here ++ [bracket] } (all ++ [bracket]) where
  here := within.here.append (.refl _)
  groups group member := by
    have longer := sublist_append_left all [bracket]
    have inside := within.groups group member
    exact ⟨inside.1.trans longer, fun kept same => (inside.2 kept same).trans longer⟩

theorem within_path (front : List Token) : Within (path front) (braces front) := by
  induction front using reverseRecOn with
  | nil => exact ⟨.refl _, fun _ member => absurd member not_mem_nil⟩
  | append_singleton front token ih =>
    rw [path_concat, braces_concat]
    cases token with
    | opening at_ => exact ih.brace (.opening at_)
    | closing at_ => exact ih.brace (.closing at_)
    | directive name => exact (append_nil (braces front)).symm ▸ ih.directive name
    | namespaceHead => exact (append_nil (braces front)).symm ▸ ih

theorem kept_within (within : Within way all) : (keptFrom way.here way.groups).Sublist all := by
  obtain ⟨here, groups⟩ := within
  generalize way.here = here', way.groups = groups' at here groups
  induction groups' generalizing here' with
  | nil => exact here
  | cons group outer ih =>
    rw [forall_mem_cons] at groups
    exact ih _ (Within.getD here groups.1.2) groups.2

theorem kept_pending (agrees : Agrees way scan) : ∃ base, pending (keptFrom way.here way.groups) = some base := by
  obtain ⟨here, groups⟩ := agrees
  generalize way.here = here', way.groups = groups', scan.open_ = stack, scan.branches = branches at here groups
  induction groups generalizing here' stack with
  | nil => exact ⟨stack, here⟩
  | cons related _ ih => exact ih _ _ (pending_getD here related.2)

/-- A brace of the configuration has its closing there as its closing, and no brace is known before it is read. -/
structure Recorded (front : List Token) (scan : Scan) : Prop where
  known : ∀ open_ close, scan.closes open_ = some close → open_ ∈ openings (braces front)
  exact : ∀ open_ ∈ openings (firstBranches front), ∀ close,
    scan.closes open_ = some close ↔ Matches (firstBranches front) open_ close

theorem firstBranches_sublist (front : List Token) : (firstBranches front).Sublist (braces front) := by
  rw [(chosen_eq front).1]
  exact kept_within (within_path front)

theorem openings_sublist {first second : List (Bracket Nat)} (inside : first.Sublist second) :
    (openings first).Sublist (openings second) := inside.filterMap _

theorem firstBranches_brace {token : Token} {bracket : Bracket Nat} (front : List Token)
    (read : (chosen front).read token = (chosen front).brace bracket) : firstBranches (front ++ [token]) =
      if (chosen front).inLater then firstBranches front else firstBranches front ++ [bracket] := by
  rw [firstBranches, chosen_concat, read, Chosen.brace]
  split <;> rfl

theorem firstBranches_directive (front : List Token) (name : List Char) :
    firstBranches (front ++ [.directive name]) = firstBranches front := by
  rw [firstBranches, chosen_concat, Chosen.read, Chosen.directive]
  split_ifs <;> rfl

theorem firstBranches_head (front : List Token) (name : List Char) (brace : Nat) :
    firstBranches (front ++ [.namespaceHead name brace]) = firstBranches front := by
  rw [firstBranches, chosen_concat]
  rfl

theorem firstBranches_first (first : (chosen front).inLater = false) : firstBranches front = (path front).here := by
  rw [(chosen_eq front).1]
  rw [Chosen.inLater, (chosen_eq front).2] at first
  exact keptFrom_first _ first

/-- The tokens behind a run are new. -/
def Fresh (front : List Token) (at_ : Nat) : Prop := ∀ bracket ∈ braces front, place bracket < at_

theorem Fresh.opening (fresh : Fresh front at_) : at_ ∉ openings (braces front) := fun member =>
  absurd (fresh _ (mem_openings.mp member)) (Nat.lt_irrefl at_)

theorem Fresh.closing (fresh : Fresh front at_) : .closing at_ ∉ braces front := fun member =>
  absurd (fresh _ member) (Nat.lt_irrefl at_)

/-- A fresh opening bracket keeps the record of what was read. -/
theorem Recorded.opening (recorded : Recorded front scan) (fresh : Fresh front at_) :
    Recorded (front ++ [.opening at_]) (scan.readOpening at_) := by
  obtain ⟨namespaceAt, pendingNamespace, same⟩ := scan.readOpening_eq at_
  rw [same]
  refine ⟨fun open_ close found => ?_, ?_⟩
  · rw [braces_concat, openings_append]
    exact mem_append_left _ (recorded.known open_ close found)
  rw [firstBranches_brace front rfl]
  split
  · exact recorded.exact
  · intro open_ member close
    rw [matches_opening]
    rw [openings_append, mem_append] at member
    rcases member with old | new
    · exact recorded.exact open_ old close
    · obtain rfl : open_ = at_ := mem_singleton.mp new
      refine iff_of_false (fun found => fresh.opening (recorded.known _ _ found)) fun matched => ?_
      exact fresh.opening ((openings_sublist (firstBranches_sublist front)).subset matched.opened)

/-- One closing brace keeps the record unless it closes what the configuration has open. -/
theorem Recorded.closing (recorded : Recorded front scan) (agrees : Agrees (path front) scan)
    (once : (openings (braces front)).Nodup) (balanced : (scan.readClosing at_).balanced)
    (keeps : ¬ ClosesKept front at_) : Recorded (front ++ [.closing at_]) (scan.readClosing at_) := by
  obtain ⟨start, rest, opened⟩ := Scan.opened_of_readClosing balanced
  have closes := @Scan.closes_readClosing _ _ at_ _ opened
  have top : pending (path front).here = some (start :: rest) := opened ▸ agrees.here
  have onceHere : (openings (firstBranches front)).Nodup :=
    once.sublist (openings_sublist (firstBranches_sublist front))
  refine ⟨fun open_ close found => ?_, ?_⟩
  · rw [braces_concat, openings_append]
    refine mem_append_left _ ?_
    by_cases same : open_ = start
    · have read := (mem_pendingFrom top mem_cons_self).resolve_left not_mem_nil
      exact same ▸ (openings_sublist (within_path front).here).subset read
    · rw [closes, if_neg same] at found
      exact recorded.known open_ close found
  rw [firstBranches_brace front rfl]
  split
  · rename_i later
    intro open_ member close
    by_cases same : open_ = start
    · subst same
      obtain ⟨base, based⟩ := kept_pending agrees
      rw [← (chosen_eq front).1] at based
      have closed : open_ ∉ base := fun still =>
        keeps ⟨later, open_, base, (matches_closing top).mpr (.inr ⟨rfl, rfl⟩), based, still⟩
      obtain ⟨before, matched⟩ := (pending_or_matches based member).resolve_left closed
      rw [closes, if_pos rfl, ← recorded.exact open_ member close, (recorded.exact open_ member before).mpr matched]
      rfl
    · rw [closes, if_neg same]
      exact recorded.exact open_ member close
  · rename_i first
    have here := firstBranches_first (Bool.eq_false_iff.mpr first)
    rw [← here] at top
    intro open_ member close
    rw [openings_append, openings_closing, openings_nil, append_nil] at member
    rw [matches_closing top]
    by_cases same : open_ = start
    · subst same
      have unmatched (close : Nat) : ¬ Matches (firstBranches front) open_ close := fun matched =>
        matched.not_pending onceHere top mem_cons_self
      have unknown : scan.closes open_ = none :=
        Option.eq_none_iff_forall_ne_some.mpr fun close found =>
          unmatched close ((recorded.exact open_ member close).mp found)
      rw [closes, if_pos rfl, unknown, Option.none_or, or_iff_right (unmatched close), Option.some.injEq]
      exact ⟨fun found => ⟨rfl, found.symm⟩, fun both => both.2.symm⟩
    · rw [closes, if_neg same, recorded.exact open_ member close]
      exact ⟨.inl, fun either => either.resolve_right fun both => same both.1⟩

/-- A brace of the configuration has a closing that is not part of the configuration. -/
def Spoiled (front : List Token) (scan : Scan) : Prop :=
  ∃ open_ ∈ openings (firstBranches front), ∃ close, scan.closes open_ = some close ∧
    .closing close ∈ braces front ∧ .closing close ∉ firstBranches front

/-- What a later branch closes first keeps that closing. -/
theorem Recorded.spoiled (recorded : Recorded front scan) (agrees : Agrees (path front) scan)
    (once : (openings (braces front)).Nodup) (fresh : Fresh front at_) (balanced : (scan.readClosing at_).balanced)
    (closes : ClosesKept front at_) : Spoiled (front ++ [.closing at_]) (scan.readClosing at_) := by
  obtain ⟨start, rest, opened⟩ := Scan.opened_of_readClosing balanced
  have top : pending (path front).here = some (start :: rest) := opened ▸ agrees.here
  obtain ⟨later, open_, stack, matched, based, still⟩ := closes
  have inside := firstBranches_sublist front
  obtain ⟨rfl, -⟩ := ((matches_closing top).mp matched).resolve_left fun before =>
    fresh.closing ((within_path front).here.subset before.closed)
  have read : open_ ∈ openings (firstBranches front) := (mem_pendingFrom based still).resolve_left not_mem_nil
  have unknown : scan.closes open_ = none :=
    Option.eq_none_iff_forall_ne_some.mpr fun close found =>
      ((recorded.exact open_ read close).mp found).not_pending (once.sublist (openings_sublist inside)) based still
  have same := @firstBranches_brace (.closing at_) _ front rfl
  rw [if_pos later] at same
  refine ⟨open_, same ▸ read, at_, ?_, ?_, fun listed => ?_⟩
  · rw [Scan.closes_readClosing opened, if_pos rfl, unknown, Option.none_or]
  · rw [braces_concat]
    exact mem_append_right _ mem_cons_self
  · rw [same] at listed
    exact fresh.closing (inside.subset listed)

theorem closes_read {token : Token} {open_ close : Nat} (found : scan.closes open_ = some close) :
    (scan.read token).closes open_ = some close := by
  cases token with
  | opening at_ =>
    obtain ⟨namespaceAt, pendingNamespace, same⟩ := scan.readOpening_eq at_
    rw [Scan.read, same]
    exact found
  | closing at_ =>
    rw [Scan.read]
    cases opened : scan.open_ with
    | nil => rwa [Scan.readClosing, opened]
    | cons start rest =>
      rw [Scan.closes_readClosing opened]
      split
      · rename_i same
        rw [← same, found]
        rfl
      · exact found
  | directive name => exact (scan.closes_readDirective name).1 ▸ found
  | namespaceHead => exact found

theorem firstBranches_concat (front : List Token) (token : Token) :
    firstBranches (front ++ [token]) = firstBranches front ∨
      ∃ bracket, token.bracket = some bracket ∧
        firstBranches (front ++ [token]) = firstBranches front ++ [bracket] := by
  cases token with
  | opening at_ =>
    rw [firstBranches_brace front rfl]
    split
    · exact .inl rfl
    · exact .inr ⟨_, rfl, rfl⟩
  | closing at_ =>
    rw [firstBranches_brace front rfl]
    split
    · exact .inl rfl
    · exact .inr ⟨_, rfl, rfl⟩
  | directive name => exact .inl (firstBranches_directive front name)
  | namespaceHead name brace => exact .inl (firstBranches_head front name brace)

/-- A scan that has gone wrong stays wrong with each token. -/
theorem Spoiled.read {token : Token} (spoiled : Spoiled front scan)
    (fresh : ∀ bracket, token.bracket = some bracket → Fresh front (place bracket)) :
    Spoiled (front ++ [token]) (scan.read token) := by
  obtain ⟨open_, read, close, found, listed, outside⟩ := spoiled
  have behind : .closing close ∈ braces (front ++ [token]) := by
    rw [braces_concat]
    exact mem_append_left _ listed
  rcases firstBranches_concat front token with same | ⟨bracket, brace, same⟩
  · exact ⟨open_, same ▸ read, close, closes_read found, behind, same ▸ outside⟩
  · refine ⟨open_, ?_, close, closes_read found, behind, fun member => ?_⟩
    · rw [same, openings_append]
      exact mem_append_left _ read
    · rw [same] at member
      rcases mem_append.mp member with old | new
      · exact outside old
      · obtain rfl := mem_singleton.mp new
        exact (fresh _ brace).closing listed

theorem keepsFirst_concat (front : List Token) (token : Token) :
    KeepsFirst (front ++ [token]) ↔ KeepsFirst front ∧ ∀ at_, token = .closing at_ → ¬ ClosesKept front at_ := by
  constructor
  · intro keeps
    refine ⟨fun first at_ back same => keeps first at_ (back ++ [token]) (by simp [same]), fun at_ same => ?_⟩
    exact keeps front at_ [] (by rw [same])
  · rintro ⟨before, now⟩ first at_ back same
    rcases eq_nil_or_concat' back with rfl | ⟨back, last, rfl⟩
    · obtain ⟨rfl, tail⟩ := append_inj' same rfl
      exact now at_ (cons.inj tail).1
    · have split : front ++ [token] = (first ++ .closing at_ :: back) ++ [last] := by simp [same]
      exact before first at_ back (append_inj' split rfl).1

/-- A run keeps the record as long as no later branch closes what the first branches leave open. -/
theorem recorded_or_spoiled (front : List Token) (balanced : (scanned front).balanced)
    (ordered : (braces front).Pairwise fun first second => place first < place second)
    (once : (openings (braces front)).Nodup) :
    (KeepsFirst front ∧ Recorded front (scanned front)) ∨ (¬ KeepsFirst front ∧ Spoiled front (scanned front)) := by
  induction front using reverseRecOn with
  | nil =>
    refine .inl ⟨fun front at_ back same => ?_, ⟨fun _ _ found => ?_, fun _ member => absurd member not_mem_nil⟩⟩
    · simp at same
    · cases found
  | append_singleton front token ih =>
    rw [scanned_concat] at balanced ⊢
    rw [braces_concat] at ordered once
    have before := balanced_of_read balanced
    have agrees := agrees_path front before
    have onceBefore := once.sublist (openings_sublist (sublist_append_left (braces front) token.bracket.toList))
    have fresh (bracket : Bracket Nat) (brace : token.bracket = some bracket) : Fresh front (place bracket) := by
      rw [brace] at ordered
      exact fun first member => (pairwise_append.mp ordered).2.2 first member bracket mem_cons_self
    rw [keepsFirst_concat]
    rcases ih before (pairwise_append.mp ordered).1 onceBefore with ⟨keeps, recorded⟩ | ⟨loses, spoiled⟩
    · cases token with
      | opening at_ => exact .inl ⟨⟨keeps, fun _ other => by cases other⟩, recorded.opening (fresh _ rfl)⟩
      | closing at_ =>
        by_cases closes : ClosesKept front at_
        · exact .inr ⟨fun both => both.2 at_ rfl closes,
            recorded.spoiled agrees onceBefore (fresh _ rfl) balanced closes⟩
        · exact .inl ⟨⟨keeps, fun _ same => by cases same; exact closes⟩,
            recorded.closing agrees onceBefore balanced closes⟩
      | directive name =>
        refine .inl ⟨⟨keeps, fun _ other => by cases other⟩, ?_, ?_⟩
        · rw [braces_concat, Scan.read, ((scanned front).closes_readDirective name).1]
          exact (append_nil (braces front)).symm ▸ recorded.known
        · rw [firstBranches_directive, Scan.read, ((scanned front).closes_readDirective name).1]
          exact recorded.exact
      | namespaceHead name brace =>
        refine .inl ⟨⟨keeps, fun _ other => by cases other⟩, ?_, ?_⟩
        · rw [braces_concat]
          exact (append_nil (braces front)).symm ▸ recorded.known
        · rw [firstBranches_head]
          exact recorded.exact
    · exact .inr ⟨fun both => loses both.1, spoiled.read fresh⟩

end Closings

section Claims

/-- Each opening brace of the configuration has the brace that matches it there as its closing. -/
def FirstBranchesMatched (text : List Char) : Prop :=
  ∀ scopes, scanCppBraceScopes text = some scopes → ∀ open_, .opening open_ ∈ firstBranches (tokens text) →
    ∃ close, Matches (firstBranches (tokens text)) open_ close ∧ scopes.closeOf open_ = some close

/-- A source without groups has scopes exactly when its braces balance. -/
def PlainBalanced (text : List Char) : Prop :=
  (∀ name, .directive name ∈ tokens text → ¬ isIf name) →
    ((scanCppBraceScopes text).isSome ↔ Balanced (braces (tokens text)))

theorem path_plain (front : List Token) (plain : ∀ name, .directive name ∈ front → ¬ isIf name) :
    path front = { here := braces front } := by
  induction front using reverseRecOn with
  | nil => rfl
  | append_singleton front token ih =>
    rw [path_concat, braces_concat, ih fun name member => plain name (mem_append_left _ member)]
    cases token with
    | opening at_ => rfl
    | closing at_ => rfl
    | namespaceHead => simp [Path.read, Token.bracket]
    | directive name =>
      have other := plain name (mem_append_right _ mem_cons_self)
      simp [Path.read, Path.directive, Path.readElse, Path.readEndif, other, Token.bracket]

theorem plain_balanced (text : List Char) : PlainBalanced text := by
  intro plain
  rw [scan_isSome_iff, balanced_iff]
  constructor
  · rintro ⟨-, closed⟩
    rwa [path_plain _ plain] at closed
  · intro closed
    refine ⟨fun front back same => ?_, by rwa [path_plain _ plain]⟩
    rw [path_plain front fun name member => plain name (same ▸ mem_append_left _ member)]
    rw [same, braces, filterMap_append, pending, pendingFrom_append] at closed
    obtain ⟨stack, open', -⟩ := Option.bind_eq_some_iff.mp closed
    rw [← braces, ← pending] at open'
    exact open' ▸ rfl

theorem closeOf_scan {text : List Char} {scopes : CppBraceScopes} (some' : scanCppBraceScopes text = some scopes)
    (open_ : Nat) : scopes.closeOf open_ = (scanned (tokens text)).closes open_ := by
  rw [scanCppBraceScopes, scanFrom_eq, ← tokens, ← scanned] at some'
  split at some'
  · cases some'
  · obtain rfl := Option.some.inj some'
    rfl

/-- The pairs are those of the first branches exactly when an accepted text keeps its first branches and these are
balanced. -/
theorem firstBranches_matched_iff (text : List Char) : FirstBranchesMatched text ↔
      (Accepted (tokens text) → KeepsFirst (tokens text) ∧ Balanced (firstBranches (tokens text))) := by
  by_cases accepted : Accepted (tokens text)
  · obtain ⟨scopes, some'⟩ := Option.isSome_iff_exists.mp ((scan_isSome_iff text).mpr accepted)
    have balanced := balanced_of_pending _ accepted.1
    have once := openings_once text
    have ordered := (braces_increase (units text) (firstCursor (units text))).2
    have onceHere := once.sublist (openings_sublist (firstBranches_sublist (tokens text)))
    obtain ⟨base, based⟩ := kept_pending (agrees_path _ balanced)
    rw [← (chosen_eq _).1] at based
    have closeOf := closeOf_scan some'
    rw [FirstBranchesMatched, some', imp_iff_right accepted]
    simp only [Option.some.injEq, forall_eq', ← mem_openings, closeOf]
    rcases recorded_or_spoiled _ balanced ordered once
      with ⟨keeps, recorded⟩ | ⟨loses, open_, read, close, found, -, outside⟩
    · rw [and_iff_right keeps, balanced_iff_matched onceHere based]
      refine forall_congr' fun open_ => forall_congr' fun read => exists_congr fun close => ?_
      rw [recorded.exact open_ read close, and_self]
    · refine iff_of_false (fun matched => ?_) fun both => loses both.1
      obtain ⟨other, matches', same⟩ := matched open_ read
      obtain rfl := Option.some.inj (found.symm.trans same)
      exact outside matches'.closed
  · refine iff_of_true (fun scopes some' => ?_) fun accepts => absurd accepts accepted
    exact absurd ((scan_isSome_iff text).mp (Option.isSome_iff_exists.mpr ⟨scopes, some'⟩)) accepted

end Claims

end Codegraph.Cpp.BraceScopes
