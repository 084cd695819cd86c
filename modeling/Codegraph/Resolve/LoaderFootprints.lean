import Codegraph.Resolve.AliasApplication
import Codegraph.Resolve.WorkspacePackages

/- This file says which states of the files the loaders cannot tell apart. -/

namespace Codegraph.Resolve.LoaderFootprints
open Codegraph.Watch.Scope (Text)
open AliasApplication Footprints JsonTokens OsPaths PathAliases WorkspacePackages

section Probes

variable {Number : Type} (fromStr : Text → Option (Value Number)) (state other : FileSystem) (projectRoot : Text)

/-- The paths that the alias loader looks at. -/
def probes : List Text := (loadProjectAliases fromStr projectRoot).asked (answer state)

/-- A file's path is looked at, but first with a slash or a dot at its end, and so no file can be there. -/
def OpenFirst : Prop := ∃ path ∈ probes fromStr state projectRoot, endsOpen path = false ∧
  ∃ first, (probes fromStr state projectRoot).find? (fun probe => components probe = components path) = some first ∧
    endsOpen first = true

/-- The states agree on the recorded inputs. -/
def AgreeOnInputs : Prop := ∀ path ∈ aliasConfigInputs fromStr state projectRoot, answer state path = answer other path

variable {fromStr state other projectRoot} {path first : Text}

theorem answer_open (opened : endsOpen path = true) (state : FileSystem) : answer state path = ⟨false, none⟩ :=
  if_pos opened

theorem answer_closed (closed : endsOpen path = false) (state : FileSystem) :
    answer state path = state (components path) :=
  if_neg (by rw [closed]; exact Bool.false_ne_true)

theorem mem_aliasConfigInputs_iff : path ∈ aliasConfigInputs fromStr state projectRoot ↔
    (probes fromStr state projectRoot).find? (fun probe => components probe = components path) = some path := by
  rw [aliasConfigInputs, mem_firsts_iff]
  exact and_iff_right List.not_mem_nil

/-- Without such a path, the recorded inputs stand for all probes. -/
theorem agree_on_probes (covered : ¬ OpenFirst fromStr state projectRoot)
    (agree : AgreeOnInputs fromStr state other projectRoot)
    (member : path ∈ probes fromStr state projectRoot) : answer state path = answer other path := by
  obtain ⟨first, listed, alike, -⟩ := @exists_first _ _ _ components _ _ member
  have same := agree first listed
  rcases open_ : endsOpen path with _ | _
  · have closed : endsOpen first = false := by
      refine Bool.eq_false_iff.mpr fun opened => covered ⟨path, member, open_, first, ?_, opened⟩
      rw [← alike]
      exact mem_aliasConfigInputs_iff.mp listed
    rw [answer_closed closed, answer_closed closed, alike] at same
    rw [answer_closed open_, answer_closed open_, same]
  · rw [answer_open open_, answer_open open_]

/-- The files of a state with another entry at some components. -/
def replaceEntry (state : FileSystem) (place : List Text) (entry : Entry) : FileSystem :=
  Function.update state place entry

/-- With such a path, another state has other answers but the same recorded inputs. -/
theorem differ_on_probes (masked : OpenFirst fromStr state projectRoot) :
    ∃ other, AgreeOnInputs fromStr state other projectRoot ∧
      ∃ path ∈ probes fromStr state projectRoot, answer state path ≠ answer other path := by
  obtain ⟨path, member, closed, first, found, opened⟩ := masked
  let entry : Entry := ⟨!(state (components path)).isFile, none⟩
  refine ⟨replaceEntry state (components path) entry, fun listed inside => ?_, path, member, ?_⟩
  · rcases open_ : endsOpen listed with _ | _
    · have apart : components listed ≠ components path := by
        intro same
        have stands := mem_aliasConfigInputs_iff.mp inside
        rw [same, found] at stands
        rw [Option.some.inj stands, open_] at opened
        cases opened
      rw [answer_closed open_, answer_closed open_, replaceEntry, Function.update_of_ne apart]
    · rw [answer_open open_, answer_open open_]
  · rw [answer_closed closed, answer_closed closed, replaceEntry, Function.update_self]
    intro same
    have flags := congrArg Entry.isFile same
    exact absurd flags (by simp [entry])

end Probes

section Reads

variable {α β γ : Type} {oracle : ∀ input, Reply input}

/-- The files that a program reads are none with a slash or a dot at the end of their paths. -/
def ReadsClosed (oracle : ∀ input, Reply input) (reading : Reading α) : Prop :=
  ∀ path, .file path ∈ reading.asked oracle → endsOpen path = false

theorem readsClosed_pure (value : α) : ReadsClosed oracle (pure value : Reading α) :=
  fun _ member => absurd member List.not_mem_nil

theorem ReadsClosed.bind {reading : Reading α} {next : α → Reading β} (closed : ReadsClosed oracle reading)
    (later : ∀ value, ReadsClosed oracle (next value)) : ReadsClosed oracle (reading >>= next) := by
  intro path member
  rw [Program.asked_bind, List.mem_append] at member
  exact member.elim (closed path) (later _ path)

theorem readsClosed_readFile {base name : Text} (single : '/' ∉ name) (solid : isBlank name = false) :
    ReadsClosed oracle (readFile (join base name)) := by
  intro path member
  rw [readFile, Program.asked_query, List.mem_singleton, WorkspaceInput.file.injEq] at member
  rw [member]
  exact endsOpen_join single solid

theorem readsClosed_foldlM {f : β → γ → Reading β} (step : ∀ done item, ReadsClosed oracle (f done item))
    (items : List γ) (done : β) : ReadsClosed oracle (items.foldlM f done) := by
  induction items generalizing done with
  | nil => exact readsClosed_pure done
  | cons item items ih =>
    rw [List.foldlM_cons]
    exact (step done item).bind ih

variable {Number : Type} (fromStr : Text → Option (Value Number)) (projectRoot : Text)

theorem readsClosed_enterPackage (byName : List (Text × Text)) (dir : Text) :
    ReadsClosed oracle (enterPackage fromStr projectRoot byName dir) := by
  refine .bind ?_ fun name => ?_
  · exact (readsClosed_readFile (by decide) (by decide)).bind fun text => readsClosed_pure _
  · cases name <;> exact readsClosed_pure _

theorem readsClosed_expandWorkspaceGlob (pattern : Text) :
    ReadsClosed oracle (expandWorkspaceGlob projectRoot pattern) := by
  rw [expandWorkspaceGlob]
  dsimp only
  split
  · exact readsClosed_pure _
  · refine .bind (fun path member => ?_) fun names => readsClosed_pure _
    rw [Program.asked_query, List.mem_singleton] at member
    cases member

theorem readsClosed_loadWorkspacePackages : ReadsClosed oracle (loadWorkspacePackages fromStr projectRoot) := by
  refine .bind ?_ fun patterns => ?_
  · refine (readsClosed_readFile (by decide) (by decide)).bind fun pkg => ?_
    exact (readsClosed_readFile (by decide) (by decide)).bind fun yaml => readsClosed_pure _
  · split
    · exact readsClosed_pure _
    · refine (readsClosed_foldlM (fun byName pattern => ?_) _ _).bind fun byName => readsClosed_pure _
      exact (readsClosed_expandWorkspaceGlob projectRoot pattern).bind fun dirs =>
        readsClosed_foldlM (readsClosed_enterPackage fromStr projectRoot) dirs byName

/-- Disks that agree on the recorded inputs of a workspace have the same packages. -/
theorem packages_agree {disk other : Disk}
    (agree : ∀ input ∈ workspaceInputs fromStr disk projectRoot, reply disk input = reply other input) :
    (loadWorkspacePackages fromStr projectRoot).run (reply disk) =
      (loadWorkspacePackages fromStr projectRoot).run (reply other) := by
  have closed := @readsClosed_loadWorkspacePackages (reply disk) _ fromStr projectRoot
  refine @run_agree_of_firsts _ _ _ WorkspaceInput.kind _ _ _ _ _
    (fun listed inside input member alike same => ?_) agree
  have asked := List.mem_of_find?_eq_some (mem_firsts_iff.mp inside).2
  cases listed with
  | file first =>
    cases input with
    | file path =>
      have parts : components first = components path := Sum.inl.inj alike
      have shared (disk : Disk) : reply disk (.file path) = reply disk (.file first) := by
        rw [reply, reply, answer_closed (closed path member), answer_closed (closed first asked), parts]
      rw [shared, shared, same]
    | memberListing dir => cases alike
  | memberListing first =>
    cases input with
    | file path => cases alike
    | memberListing dir =>
      have parts : components first = components dir := Sum.inr.inj alike
      have shared (disk : Disk) : reply disk (.memberListing dir) = reply disk (.memberListing first) := by
        rw [reply, reply, memberListing, memberListing, parts]
      rw [shared, shared, same]

end Reads

/-- Without a path that is first looked at with an open end, the recorded inputs decide the aliases. With one, they
decide less than the loader learns. The recorded inputs of a workspace always decide its packages. -/
theorem recorded_inputs_decide {Number : Type} (fromStr : Text → Option (Value Number)) (projectRoot : Text) :
    (∀ state, ¬ OpenFirst fromStr state projectRoot → ∀ other, AgreeOnInputs fromStr state other projectRoot →
      (loadProjectAliases fromStr projectRoot).run (answer state) =
        (loadProjectAliases fromStr projectRoot).run (answer other)) ∧
    (∀ state, (∀ other, AgreeOnInputs fromStr state other projectRoot → ∀ path ∈ probes fromStr state projectRoot,
      answer state path = answer other path) ↔ ¬ OpenFirst fromStr state projectRoot) ∧
    ∀ disk other, (∀ input ∈ workspaceInputs fromStr disk projectRoot, reply disk input = reply other input) →
      (loadWorkspacePackages fromStr projectRoot).run (reply disk) =
        (loadWorkspacePackages fromStr projectRoot).run (reply other) := by
  refine ⟨fun state covered other agree => ?_,
    fun state => ⟨fun same masked => ?_, fun covered other agree path => ?_⟩, fun disk other => ?_⟩
  · exact Program.run_agree fun path => agree_on_probes covered agree
  · obtain ⟨other, agree, path, member, differ⟩ := differ_on_probes masked
    exact differ (same other agree path member)
  · exact agree_on_probes covered agree
  · exact packages_agree fromStr projectRoot

section Example

def noFiles : FileSystem := fun _ => ⟨false, none⟩

/-- A file that is no configuration changes neither the aliases nor the packages of a project without any. -/
theorem other_file_is_no_input : (loadProjectAliases (readText wordReader) "/p".toList).run (answer noFiles) =
      (loadProjectAliases (readText wordReader) "/p".toList).run
        (answer (replaceEntry noFiles (components "/p/a.ts".toList) ⟨true, some []⟩)) ∧
    (loadWorkspacePackages (readText wordReader) "/p".toList).run (reply ⟨noFiles, fun _ => []⟩) =
      (loadWorkspacePackages (readText wordReader) "/p".toList).run
        (reply ⟨replaceEntry noFiles (components "/p/a.ts".toList) ⟨true, some []⟩, fun _ => []⟩) := by
  obtain ⟨decides, -, packages⟩ := recorded_inputs_decide (readText wordReader) "/p".toList
  have looked : probes (readText wordReader) noFiles "/p".toList =
      ["/p/tsconfig.json".toList, "/p/jsconfig.json".toList, "/p/tsconfig.base.json".toList] := rfl
  have inputs : workspaceInputs (readText wordReader) ⟨noFiles, fun _ => []⟩ "/p".toList =
      [.file "/p/package.json".toList, .file "/p/pnpm-workspace.yaml".toList] := rfl
  constructor
  · refine decides noFiles ?_ _ fun path member => ?_
    · rintro ⟨path, -, -, first, found, opened⟩
      have member := List.mem_of_find?_eq_some found
      rw [looked] at member
      have closed : ∀ path ∈ ["/p/tsconfig.json".toList, "/p/jsconfig.json".toList, "/p/tsconfig.base.json".toList],
        endsOpen path = false := by
        decide
      rw [closed first member] at opened
      cases opened
    · have listed := List.mem_of_find?_eq_some (mem_aliasConfigInputs_iff.mp member)
      rw [looked] at listed
      have same : ∀ path ∈ ["/p/tsconfig.json".toList, "/p/jsconfig.json".toList, "/p/tsconfig.base.json".toList],
        answer noFiles path =
          answer (replaceEntry noFiles (components "/p/a.ts".toList) ⟨true, some []⟩) path := by
        decide
      exact same path listed
  · refine packages _ _ fun input member => ?_
    rw [inputs] at member
    have same : (answer noFiles "/p/package.json".toList).content =
          (answer (replaceEntry noFiles (components "/p/a.ts".toList) ⟨true, some []⟩)
            "/p/package.json".toList).content ∧
        (answer noFiles "/p/pnpm-workspace.yaml".toList).content =
          (answer (replaceEntry noFiles (components "/p/a.ts".toList) ⟨true, some []⟩)
            "/p/pnpm-workspace.yaml".toList).content := by
      decide
    rcases List.mem_pair.mp member with rfl | rfl
    · exact same.1
    · exact same.2

/-- This configuration is `{"extends":["./b/","./b"]}`. -/
def extendsText : Text := "\x7b\"extends\":[\"./b/\",\"./b\"]\x7d".toList

def extendsDoc : Doc := .object [("extends".toList, .array [.string "./b/".toList, .string "./b".toList])]

def extendsRaw : Value Text := .object [("extends".toList, .array [.string "./b/".toList, .string "./b".toList])]

/-- The base of this configuration is missing. -/
def extendsFiles : FileSystem :=
  fun path => if path = components "/p/tsconfig.json".toList then ⟨true, some extendsText⟩ else ⟨false, none⟩

/-- The base is a file that declares paths. -/
def baseFiles : FileSystem := replaceEntry extendsFiles (components "/p/./b".toList) ⟨true, some starText⟩

theorem extendsDoc_value : extendsDoc.value wordReader = some extendsRaw := by
  have key : unescape "extends".toList = some "extends".toList := by decide +kernel
  have first : unescape "./b/".toList = some "./b/".toList := rfl
  have second : unescape "./b".toList = some "./b".toList := rfl
  simp only [extendsDoc, Doc.value, wordReader, Doc.valueAt, Doc.memberValues, Doc.itemValues, key, first, second,
    Option.bind_some, Option.map_some]
  rfl

/-- The candidates of the two bases. -/
def openCandidates : List Text := ["/p/./b/".toList, "/p/./b/.json".toList, "/p/./b/tsconfig.json".toList]

def closedCandidates : List Text := ["/p/./b".toList, "/p/./b.json".toList, "/p/./b/tsconfig.json".toList]

theorem resolveExtendsTarget_bases : resolveExtendsTarget "./b/".toList "/p".toList = findFile openCandidates ∧
    resolveExtendsTarget "./b".toList "/p".toList = findFile closedCandidates := by
  have open_ : candidatesFor (resolveConfigPath "/p".toList "./b/".toList) = openCandidates := rfl
  have closed : candidatesFor (resolveConfigPath "/p".toList "./b".toList) = closedCandidates := rfl
  constructor
  · rw [resolveExtendsTarget, if_pos (by decide), open_]
  · rw [resolveExtendsTarget, if_pos (by decide), closed]

/-- What the configuration asks, whatever its bases are. -/
theorem loadEffectiveOptions_extends {files : FileSystem}
    (there : (answer files "/p/tsconfig.json".toList).content = some extendsText) :
    (readTsconfigLike (readText wordReader) "/p/tsconfig.json".toList).run (answer files) = some extendsRaw ∧
      extendsOf extendsRaw = ["./b/".toList, "./b".toList] ∧
        (parent "/p/tsconfig.json".toList).getD [] = "/p".toList := by
  have plain : Jsonc.stripJsonc extendsText = extendsText := by decide +kernel
  have lexed : lex extendsText = some extendsDoc.tokens := rfl
  exact ⟨run_readTsconfigLike_plain there plain lexed extendsDoc_value rfl, rfl, rfl⟩

/-- Without its base, the configuration has no options. -/
theorem options_without_base :
    (loadEffectiveOptions (readText wordReader) (maxExtendsDepth + 1) "/p/tsconfig.json".toList []).run
      (answer extendsFiles) =
        some ⟨none, none, none⟩ ∧
      (loadEffectiveOptions (readText wordReader) (maxExtendsDepth + 1) "/p/tsconfig.json".toList []).asked
        (answer extendsFiles) =
        "/p/tsconfig.json".toList :: (openCandidates ++ closedCandidates) := by
  have there : answer extendsFiles "/p/tsconfig.json".toList = ⟨true, some extendsText⟩ := rfl
  obtain ⟨read, bases, dir⟩ := loadEffectiveOptions_extends (by rw [there])
  have asks : (readTsconfigLike (readText wordReader) "/p/tsconfig.json".toList).asked (answer extendsFiles) =
    ["/p/tsconfig.json".toList] := rfl
  obtain ⟨first, first_⟩ := @findFile_missing (answer extendsFiles) openCandidates (by decide)
  obtain ⟨second, second_⟩ := @findFile_missing (answer extendsFiles) closedCandidates (by decide)
  rw [loadEffectiveOptions]
  dsimp only
  rw [if_neg List.not_mem_nil]
  simp only [Program.run_bind, Program.asked_bind, read, asks, dir, bases, List.foldlM_cons, List.foldlM_nil,
    resolveExtendsTarget_bases.1,
    resolveExtendsTarget_bases.2, first, first_, second, second_, Program.run_pure, Program.asked_pure]
  exact ⟨rfl, rfl⟩

/-- With its base, the configuration has the options of the base. -/
theorem options_with_base :
    (loadEffectiveOptions (readText wordReader) (maxExtendsDepth + 1) "/p/tsconfig.json".toList []).run
      (answer baseFiles) =
      some ⟨none, some [("a*a".toList, .array [.string "x*".toList])], some "/p".toList⟩ := by
  have there : answer baseFiles "/p/tsconfig.json".toList = ⟨true, some extendsText⟩ := rfl
  have base : answer baseFiles "/p/./b".toList = ⟨true, some starText⟩ := rfl
  obtain ⟨read, bases, dir⟩ := loadEffectiveOptions_extends (by rw [there])
  obtain ⟨first, -⟩ := @findFile_missing (answer baseFiles) openCandidates (by decide)
  have second : (findFile closedCandidates).run (answer baseFiles) = some "/p/./b".toList :=
    run_findFile_head (by rw [base])
  have star : (readTsconfigLike (readText wordReader) "/p/./b".toList).run (answer baseFiles) = some starRaw :=
    run_readTsconfigLike_plain (by rw [base]) (by decide +kernel) starText_lexed starDoc_value rfl
  have inherited :=
    @run_loadEffectiveOptions_own _ _ (answer baseFiles) starRaw 31 _ [stringPathToPosix "/p/tsconfig.json".toList]
    (by decide) star rfl
  rw [loadEffectiveOptions]
  dsimp only
  rw [if_neg List.not_mem_nil]
  simp only [Program.run_bind, read, dir, bases, List.foldlM_cons, List.foldlM_nil, resolveExtendsTarget_bases.1,
    resolveExtendsTarget_bases.2, first, second, maxExtendsDepth, inherited, Program.run_pure]
  rfl

/-- The three configurations that a project can have. -/
theorem joined_configs : join "/p".toList "tsconfig.json".toList = "/p/tsconfig.json".toList ∧
    join "/p".toList "jsconfig.json".toList = "/p/jsconfig.json".toList ∧
    join "/p".toList "tsconfig.base.json".toList = "/p/tsconfig.base.json".toList := by decide

/-- Without its base the configuration has no aliases. -/
theorem aliases_without_base : (loadProjectAliases (readText wordReader) "/p".toList).run (answer extendsFiles) = none ∧
    probes (readText wordReader) extendsFiles "/p".toList = "/p/tsconfig.json".toList :: "/p/tsconfig.json".toList ::
      (openCandidates ++ closedCandidates ++ ["/p/jsconfig.json".toList, "/p/tsconfig.base.json".toList]) := by
  have there : answer extendsFiles "/p/tsconfig.json".toList = ⟨true, some extendsText⟩ := rfl
  obtain ⟨first, second, third⟩ := joined_configs
  obtain ⟨ran, asked⟩ := options_without_base
  simp only [probes, loadProjectAliases, loadFirst, isFile, Program.run_bind, Program.asked_bind, Program.run_query,
    Program.asked_query, Program.run_pure, Program.asked_pure, there, first, second, third, ran, asked, if_true]
  exact ⟨rfl, rfl⟩

theorem aliases_with_base :
    (loadProjectAliases (readText wordReader) "/p".toList).run (answer baseFiles) = some starAliases := by
  have there : answer baseFiles "/p/tsconfig.json".toList = ⟨true, some extendsText⟩ := rfl
  simp only [loadProjectAliases, loadFirst, isFile, Program.run_bind, Program.run_query, Program.run_pure, there,
    joined_configs.1, options_with_base, if_true]
  exact starAliases_of_options

/-- The path `/p/./b` is looked at, but it is not recorded beside `/p/./b/`, which is equal to it. A file that is put
there changes the aliases. -/
theorem unrecorded_base_changes_aliases : AgreeOnInputs (readText wordReader) extendsFiles baseFiles "/p".toList ∧
    (loadProjectAliases (readText wordReader) "/p".toList).run (answer extendsFiles) = none ∧
    (loadProjectAliases (readText wordReader) "/p".toList).run (answer baseFiles) = some starAliases := by
  refine ⟨fun path member => ?_, aliases_without_base.1, aliases_with_base⟩
  have stands := mem_aliasConfigInputs_iff.mp member
  rcases open_ : endsOpen path with _ | _
  · have apart : components path ≠ components "/p/./b".toList := by
      intro same
      have first : (probes (readText wordReader) extendsFiles "/p".toList).find? (fun probe =>
          components probe = components "/p/./b".toList) = some "/p/./b/".toList := by
        rw [aliases_without_base.2]
        rfl
      rw [same, first] at stands
      rw [← Option.some.inj stands] at open_
      exact absurd open_ (by decide)
    rw [answer_closed open_, answer_closed open_, baseFiles, replaceEntry, Function.update_of_ne apart]
  · rw [answer_open open_, answer_open open_]

end Example

end Codegraph.Resolve.LoaderFootprints
