import FileGraph.Proofs.Alias
import FileGraph.Proofs.FileTree.Surface
import FileGraph.Proofs.Graph.Limits
import FileGraph.Proofs.Graph.ShortestPath
import FileGraph.Run

/-! # What commands do

* `Provides`: the graph that a command is about, by where it comes from.
* `Command.source?`, `Command.target?`, `Command.named`: where a command gets its graph from, which
  file it writes, and which files it asks about.
* `CarriedOut`: the ways in which a command can end.
* `carriedOut_run`: every command ends in one of these ways.
* `run_effects`: exit codes, what is printed, and what is written.
-/

namespace FileGraph.CommandLine

/-- The graph that a command is about: a stored one, or that of a scan. -/
inductive Provides (tree : FileTree) (source : GraphSource) (g : Graph) : Prop where
  | stored {path : String} :
      source.graph = some path → Graph.load tree ⟨path⟩ = .ok g → Provides tree source g
  | scanned :
      source.graph = none →
      Graph.scan tree (optionsOf (configOf tree source) source) ⟨source.path⟩ = .ok g →
      Provides tree source g

/-- The ids that a question asks about. -/
def Question.named : Question → List String
  | .connected file _ => [cleanId file]
  | .path source target => [source, target]
  | .cycles | .hubs _ _ => []

namespace Command

def source? : Command → Option GraphSource
  | scan source _ | summary source _ | query source _ _ => some source
  | completions _ => none

def target? : Command → Option String
  | scan _ json => json
  | _ => none

def named : Command → List String
  | query _ question _ => question.named
  | _ => []

end Command

variable {tree : FileTree} {source : GraphSource} {g : Graph}

/-! ## Graphs -/

theorem obtain_eq_ok_iff : obtain tree source = .ok g ↔ Provides tree source g := by
  unfold obtain
  constructor
  · intro obtained
    split at obtained
    next path stored =>
      split at obtained
      next h loaded =>
        cases obtained
        exact .stored stored loaded
      next => cases obtained
    next fresh =>
      split at obtained
      next h found =>
        cases obtained
        exact .scanned fresh found
      next => cases obtained
  · intro provides
    cases provides with
    | stored stored loaded => simp only [stored, loaded]
    | scanned fresh found => simp only [fresh, found]

theorem Provides.unique {h : Graph} (provides : Provides tree source g)
    (other : Provides tree source h) : g = h := by
  have obtained := obtain_eq_ok_iff.2 provides
  rw [obtain_eq_ok_iff.2 other] at obtained
  exact (Except.ok.inj obtained).symm

theorem not_provides_of_error {line : String} (failed : obtain tree source = .error line) :
    ¬ ∃ g, Provides tree source g := by
  rintro ⟨g, provides⟩
  rw [obtain_eq_ok_iff.2 provides] at failed
  cases failed

theorem node?_isNone_iff {id : String} : (g.node? id).isNone = true ↔ id ∉ g.ids := by
  simp [Graph.node?, Graph.ids]

/-! ## Answers -/

/-- A question is answered exactly if it asks about files of the graph only. -/
theorem answer_cases (g : Graph) (format : OutputFormat) (question : Question) :
    (∃ text, answer g format question = .ok text ∧ ∀ id ∈ question.named, id ∈ g.ids) ∨
      ∃ file, answer g format question = .error file ∧ ∃ id ∈ question.named, id ∉ g.ids := by
  cases question with
  | cycles => exact .inl ⟨_, rfl, List.forall_mem_nil _⟩
  | hubs metric top => exact .inl ⟨_, rfl, List.forall_mem_nil _⟩
  | connected file direction =>
    by_cases known : cleanId file ∈ g.ids
    · refine .inl ⟨_, if_neg ?_, List.forall_mem_singleton.2 known⟩
      rwa [node?_isNone_iff, not_not]
    · refine .inr ⟨file, if_pos (node?_isNone_iff.2 known), ?_⟩
      exact ⟨cleanId file, List.mem_singleton_self _, known⟩
  | path source target =>
    cases unknown : [source, target].find? fun file => (g.node? file).isNone with
    | none =>
      refine .inl ⟨_, by rw [answer, unknown], fun id member => ?_⟩
      have known := List.find?_eq_none.1 unknown id member
      rwa [node?_isNone_iff, not_not] at known
    | some file =>
      have missing := List.find?_some unknown
      exact .inr ⟨file, by rw [answer, unknown], file, List.mem_of_find?_eq_some unknown,
        node?_isNone_iff.1 missing⟩

/-! ## The ways in which a command ends -/

/-- How a command can end. -/
inductive CarriedOut (tree : FileTree) (source : GraphSource) (command : Command) : Outcome → Prop
    where
  | noGraph {line : String} :
      (¬ ∃ g, Provides tree source g) → CarriedOut tree source command (.failure tree 1 line)
  | notWritten {g : Graph} {target line : String} :
      Provides tree source g → command.target? = some target → command.named = [] →
      (∀ location, tree.writable ⟨target⟩ ≠ .ok location) →
      CarriedOut tree source command (.failure tree 1 line)
  | unknown {g : Graph} {id line : String} :
      Provides tree source g → command.target? = none → id ∈ command.named → id ∉ g.ids →
      CarriedOut tree source command (.failure tree 2 line)
  | answered {g : Graph} {text : String} :
      Provides tree source g → command.target? = none → (∀ id ∈ command.named, id ∈ g.ids) →
      CarriedOut tree source command (.success tree text)
  | written {g : Graph} {target text : String} {location : Location} :
      Provides tree source g → command.target? = some target → command.named = [] →
      tree.writable ⟨target⟩ = .ok location →
      CarriedOut tree source command (.success (tree.fill location g.render.toUTF8) text)

theorem carriedOut_runScan (isQuiet : Bool) (json : Option String) :
    CarriedOut tree source (.scan source json) (runScan tree isQuiet source json) := by
  unfold runScan
  cases obtained : obtain tree source with
  | error line => exact .noGraph (not_provides_of_error obtained)
  | ok g =>
    have provides := obtain_eq_ok_iff.1 obtained
    cases json with
    | none => exact .answered provides rfl (List.forall_mem_nil _)
    | some target =>
      dsimp only
      cases saved : g.save tree ⟨target⟩ with
      | error fault =>
        refine .notWritten provides rfl rfl fun location writable => ?_
        rw [Graph.save_eq_ok_iff.2 ⟨location, writable, rfl⟩] at saved
        cases saved
      | ok tree' =>
        obtain ⟨location, writable, rfl⟩ := Graph.save_eq_ok_iff.1 saved
        exact .written provides rfl rfl writable

theorem carriedOut_runAnswer (command : Command) (noTarget : command.target? = none)
    (format : Option OutputFormat) {answer : Graph → OutputFormat → Answer}
    (either : ∀ g format, (∃ text, answer g format = .ok text ∧ ∀ id ∈ command.named, id ∈ g.ids) ∨
      ∃ file, answer g format = .error file ∧ ∃ id ∈ command.named, id ∉ g.ids) :
    CarriedOut tree source command (runAnswer tree source format answer) := by
  unfold runAnswer
  cases obtained : obtain tree source with
  | error line => exact .noGraph (not_provides_of_error obtained)
  | ok g =>
    have provides := obtain_eq_ok_iff.1 obtained
    dsimp only
    obtain ⟨text, answered, known⟩ | ⟨file, failed, id, member, unknown⟩ :=
      either g (outputFormat format (configOf tree source))
    · rw [answered]
      exact .answered provides noTarget known
    · rw [failed]
      exact .unknown provides noTarget member unknown

theorem carriedOut_run {invocation : Invocation}
    (about : invocation.command.source? = some source) :
    CarriedOut tree source invocation.command (run tree invocation) := by
  obtain ⟨isQuiet, command⟩ := invocation
  cases command with
  | scan source' json =>
    obtain rfl := Option.some.inj about
    exact carriedOut_runScan isQuiet json
  | summary source' format =>
    obtain rfl := Option.some.inj about
    exact carriedOut_runAnswer (.summary source' format) rfl format fun g format =>
      .inl ⟨_, rfl, List.forall_mem_nil _⟩
  | query source' question format =>
    obtain rfl := Option.some.inj about
    exact carriedOut_runAnswer (.query source' question format) rfl format fun g format =>
      answer_cases g format question
  | completions shell => cases about

/-! ## Effects and exit codes -/

@[simp] theorem Outcome.exitCode_success (tree : FileTree) (output : String) :
    (Outcome.success tree output).exitCode = 0 :=
  rfl

@[simp] theorem Outcome.exitCode_failure (tree : FileTree) (exitCode : Nat) (line : String) :
    (Outcome.failure tree exitCode line).exitCode = exitCode :=
  rfl

theorem Outcome.errors_failure_ne (tree : FileTree) (exitCode : Nat) (line : String) :
    (Outcome.failure tree exitCode line).errors ≠ "" := by
  intro empty
  have length := congrArg String.length empty
  simp [Outcome.failure] at length

namespace CarriedOut

variable {command : Command} {outcome : Outcome} (carriedOut : CarriedOut tree source command outcome)

include carriedOut

/-- A command fails with nothing but an error message and succeeds without one. -/
theorem streams :
    (outcome.exitCode ≠ 0 → outcome.output = "" ∧ outcome.errors ≠ "") ∧
      (outcome.exitCode = 0 → outcome.errors = "") := by
  cases carriedOut with
  | noGraph | notWritten | unknown =>
    refine ⟨fun _ => ⟨rfl, Outcome.errors_failure_ne _ _ _⟩, fun zero => ?_⟩
    cases zero
  | answered | written => exact ⟨fun nonzero => absurd rfl nonzero, fun _ => rfl⟩

theorem exitCode_eq_one_iff :
    outcome.exitCode = 1 ↔ (¬ ∃ g, Provides tree source g) ∨
      ∃ target, command.target? = some target ∧
        ∀ location, tree.writable ⟨target⟩ ≠ .ok location := by
  cases carriedOut with
  | noGraph none => exact iff_of_true rfl (.inl none)
  | notWritten provides target noNames refused => exact iff_of_true rfl (.inr ⟨_, target, refused⟩)
  | unknown provides noTarget =>
    refine iff_of_false (by simp) ?_
    rintro (none | ⟨target, asked, -⟩)
    · exact none ⟨_, provides⟩
    · cases noTarget.symm.trans asked
  | answered provides noTarget =>
    refine iff_of_false (by simp) ?_
    rintro (none | ⟨target, asked, -⟩)
    · exact none ⟨_, provides⟩
    · cases noTarget.symm.trans asked
  | written provides target noNames writable =>
    refine iff_of_false (by simp) ?_
    rintro (none | ⟨target', asked, refused⟩)
    · exact none ⟨_, provides⟩
    · obtain rfl := Option.some.inj (target.symm.trans asked)
      exact refused _ writable

theorem exitCode_eq_two_iff :
    outcome.exitCode = 2 ↔ ∃ g, Provides tree source g ∧ ∃ id ∈ command.named, id ∉ g.ids := by
  cases carriedOut with
  | noGraph none =>
    refine iff_of_false (by simp) ?_
    rintro ⟨g, provides, -⟩
    exact none ⟨g, provides⟩
  | notWritten provides target noNames =>
    refine iff_of_false (by simp) ?_
    rintro ⟨g, -, id, member, -⟩
    rw [noNames] at member
    cases member
  | unknown provides noTarget member unknown =>
    exact iff_of_true rfl ⟨_, provides, _, member, unknown⟩
  | answered provides noTarget known =>
    refine iff_of_false (by simp) ?_
    rintro ⟨h, other, id, member, unknown⟩
    exact unknown (provides.unique other ▸ known id member)
  | written provides target noNames =>
    refine iff_of_false (by simp) ?_
    rintro ⟨g, -, id, member, -⟩
    rw [noNames] at member
    cases member

theorem exitCode_mem : outcome.exitCode ∈ [0, 1, 2] := by
  cases carriedOut <;> simp

theorem surface_eq_or_target (hasHere : tree.HasHere) (place : Location) :
    (outcome.tree.top.find? place).map Entry.surface = (tree.top.find? place).map Entry.surface ∨
      (∃ g, Provides tree source g) ∧ ∃ target, command.target? = some target ∧
        tree.writable ⟨target⟩ = .ok place := by
  cases carriedOut with
  | noGraph | notWritten | unknown | answered => exact .inl rfl
  | @written g target text location provides asked noNames writable =>
    by_cases same : place = location
    · exact .inr ⟨⟨g, provides⟩, target, asked, same ▸ writable⟩
    · exact .inl (FileTree.surface_fill _ hasHere writable same)

theorem exitCode_eq_zero (provides : Provides tree source g)
    (writable : ∀ target, command.target? = some target →
      ∃ location, tree.writable ⟨target⟩ = .ok location)
    (known : ∀ id ∈ command.named, id ∈ g.ids) : outcome.exitCode = 0 := by
  cases carriedOut with
  | noGraph none => exact absurd ⟨g, provides⟩ none
  | notWritten _ asked _ refused =>
    obtain ⟨location, free⟩ := writable _ asked
    exact absurd free (refused location)
  | unknown other _ member unknown => exact absurd (provides.unique other ▸ known _ member) unknown
  | answered | written => rfl

theorem exists_fill_of_target {target : String} (asked : command.target? = some target)
    (zero : outcome.exitCode = 0) :
    ∃ g location, Provides tree source g ∧ tree.writable ⟨target⟩ = .ok location ∧
      outcome.tree = tree.fill location g.render.toUTF8 := by
  cases carriedOut with
  | noGraph | notWritten | unknown => cases zero
  | answered _ noTarget => cases noTarget.symm.trans asked
  | written provides asked' _ writable =>
    obtain rfl := Option.some.inj (asked'.symm.trans asked)
    exact ⟨_, _, provides, writable, rfl⟩

theorem readText_target (hasHere : tree.HasHere) {target : String}
    (asked : command.target? = some target) (zero : outcome.exitCode = 0)
    (provides : Provides tree source g) (stores : tree.Stores ⟨target⟩) :
    outcome.tree.readText ⟨target⟩ = .ok g.render := by
  obtain ⟨h, location, other, writable, filled⟩ := carriedOut.exists_fill_of_target asked zero
  have written : g.save tree ⟨target⟩ = .ok outcome.tree :=
    Graph.save_eq_ok_iff.2 ⟨location, writable, provides.unique other ▸ filled⟩
  exact Graph.readText_save hasHere stores written

end CarriedOut

/-- There is no more to read in a project that is scanned than a graph can count. -/
def GraphSource.Moderate (tree : FileTree) (source : GraphSource) : Prop :=
  source.graph = none → ∀ location entry, tree.lookup ⟨source.path⟩ = .ok (location, entry) →
    entry.bulk < bulkLimit

theorem Provides.fits (moderate : source.Moderate tree) (provides : Provides tree source g) :
    g.Fits := by
  cases provides with
  | stored _ loaded => exact Graph.fits_of_load loaded
  | scanned fresh found => exact Graph.fits_scan (moderate fresh) found

/-- What a command changes, what it prints and how it ends. The graph that was scanned is in the file that
it was written to, if that file stores what is written to it. -/
theorem run_effects {tree : FileTree} {invocation : Invocation} {source : GraphSource}
    (hasHere : tree.HasHere) (about : invocation.command.source? = some source) :
    let command := invocation.command
    let outcome := run tree invocation
    (∀ place,
      (outcome.tree.top.find? place).map Entry.surface = (tree.top.find? place).map Entry.surface ∨
        (∃ g, Provides tree source g) ∧ ∃ target, command.target? = some target ∧
          tree.writable ⟨target⟩ = .ok place) ∧
      (∀ target g, command.target? = some target → outcome.exitCode = 0 →
        Provides tree source g → source.Moderate tree → tree.Stores ⟨target⟩ →
        Graph.load outcome.tree ⟨target⟩ = .ok g) ∧
      (outcome.exitCode = 1 ↔ (¬ ∃ g, Provides tree source g) ∨
        ∃ target, command.target? = some target ∧
          ∀ location, tree.writable ⟨target⟩ ≠ .ok location) ∧
      (outcome.exitCode = 2 ↔ ∃ g, Provides tree source g ∧ ∃ id ∈ command.named, id ∉ g.ids) ∧
      outcome.exitCode ∈ [0, 1, 2] ∧
      (outcome.exitCode ≠ 0 → outcome.output = "" ∧ outcome.errors ≠ "") ∧
      (outcome.exitCode = 0 → outcome.errors = "") := by
  intro command outcome
  have carriedOut : CarriedOut tree source command outcome := carriedOut_run about
  refine ⟨carriedOut.surface_eq_or_target hasHere, ?_, carriedOut.exitCode_eq_one_iff,
    carriedOut.exitCode_eq_two_iff, carriedOut.exitCode_mem, carriedOut.streams.1,
    carriedOut.streams.2⟩
  intro target g asked zero provides moderate stores
  exact Graph.load_eq (provides.fits moderate)
    (carriedOut.readText_target hasHere asked zero provides stores)

/-! ## A project with a configuration and aliases -/

def pairConfig : String :=
  "[scan]\nalias_config = \"jsconfig.json\"\n\n[query]\ndefault_format = \"json\"\n"

def pairAliases : String :=
  "\x7b\"compilerOptions\":\x7b\"paths\":\x7b\"@/*\":[\"./*\"]\x7d\x7d\x7d"

/-- A text that imports a module by an alias. -/
def aliasedText : String :=
  "import \x7b x \x7d from '@/a';\n"

/-- Two modules that import each other, one of them by an alias, and the documents of the project. -/
def pairEntries : List (String × Entry) :=
  [("a.ts", .file (moduleText ["b"]).toUTF8), ("b.ts", .file aliasedText.toUTF8),
    ("jsconfig.json", .file pairAliases.toUTF8), ("polyglot-depgraph.toml", .file pairConfig.toUTF8)]

/-- The project, and other things beside its folder. -/
def pairTree (others : List (String × Entry)) : FileTree :=
  { top := .folder (("p", .folder pairEntries) :: others), here := ["p"] }

def pairFiles : List SourceFile :=
  [⟨⟨"/p/a.ts"⟩, "a.ts", moduleText ["b"], .typeScript⟩,
    ⟨⟨"/p/b.ts"⟩, "b.ts", aliasedText, .typeScript⟩]

def pairSource : GraphSource := ⟨"/p", none, none, true⟩

def pairGraph (others : List (String × Entry)) : Graph :=
  .assemble (pairTree others) ⟨"/p"⟩ [⟨"@", "."⟩] pairFiles

section Pair

variable (others : List (String × Entry))

theorem readText_pairTree {path : Path} {text : String} (plain : FileTree.IsPlain path)
    (standing : (pairTree others).top.find? (FileTree.steps path.text) = some (.file text.toUTF8)) :
    (pairTree others).readText path = .ok text := by
  have valid : String.fromUTF8? text.toUTF8 = some text := dif_pos text.isValidUTF8
  rw [FileTree.readText, plain.lookup_eq standing]
  simp only [bind, Except.bind, Mode.plain, if_true, valid]

theorem configOf_pairTree : configOf (pairTree others) pairSource =
    some ⟨some ⟨none, some "jsconfig.json"⟩, some ⟨some "json"⟩⟩ := by
  have path : Path.join ⟨"/p"⟩ Config.fileName = ⟨"/p/polyglot-depgraph.toml"⟩ := by decide
  have read : (pairTree others).readText ⟨"/p/polyglot-depgraph.toml"⟩ = .ok pairConfig :=
    readText_pairTree others (by decide) rfl
  have parsed : Config.parse pairConfig =
      some ⟨some ⟨none, some "jsconfig.json"⟩, some ⟨some "json"⟩⟩ := by decide +kernel
  rw [configOf, pairSource, Config.near, Config.read, path, read]
  simp only [parsed]
  rfl

theorem load_aliases_pairTree :
    AliasTable.load (pairTree others) ⟨"/p"⟩ "jsconfig.json" = .ok [⟨"@", "."⟩] := by
  have path : Path.join ⟨"/p"⟩ "jsconfig.json" = ⟨"/p/jsconfig.json"⟩ := by decide
  have plain : FileTree.IsPlain ⟨"/p/jsconfig.json"⟩ := by decide
  have isFile : (pairTree others).isFile ⟨"/p/jsconfig.json"⟩ = true :=
    FileTree.isFile_iff_lookup.2 ⟨_, _, _, plain.lookup_eq rfl, rfl⟩
  have read : (pairTree others).readText ⟨"/p/jsconfig.json"⟩ = .ok pairAliases :=
    readText_pairTree others plain rfl
  have text : pairAliases = String.ofList
      (AliasTable.compactDocument [] none [("@/*", Json.compactArray [Json.quoted "./*"])]) := by
    decide +kernel
  have parsed : AliasTable.parse pairAliases = .ok [⟨"@", "."⟩] := by
    rw [text, AliasTable.parse_single]
    rfl
  simp only [AliasTable.load, path, isFile, if_true, read, parsed]

theorem below_pairTree :
    SourceFile.below (pairTree others) ["p"] ⟨"/p"⟩ (.folder pairEntries) = .ok pairFiles := by
  have sorted : (Entry.folder pairEntries).ordered = .folder pairEntries :=
    Entry.ordered_folder (by decide) (by simp [pairEntries, Entry.ordered])
  rw [SourceFile.below_congr (show (pairTree others).isListed = (pairTree []).isListed from rfl),
    SourceFile.below, sorted]
  exact SourceFile.gather_eq_ok_iff.2 ⟨by decide, by decide⟩

theorem scan_pairTree :
    Graph.scan (pairTree others) (optionsOf (configOf (pairTree others) pairSource) pairSource) ⟨"/p"⟩ =
      .ok (pairGraph others) := by
  have standing : (pairTree others).top.find? ["p"] = some (.folder pairEntries) := rfl
  have root : Location.toPath ["p"] = ⟨"/p"⟩ := by decide
  have options : (optionsOf (configOf (pairTree others) pairSource) pairSource).aliasFile =
      "jsconfig.json" := by
    rw [configOf_pairTree]
    rfl
  refine Graph.scan_eq_ok_iff.2 ⟨_, _, _, _, FileTree.lookup_topFolder standing,
    FileTree.canonicalize_topFolder standing, root ▸ below_pairTree others, ?_⟩
  rw [root, options, load_aliases_pairTree]
  rfl

theorem isFile_pairTree (name : String) {content : ByteArray} (isName : FileTree.IsStep name)
    (standing : (pairTree others).top.find? ["p", name] = some (.file content))
    {path : Path} (absolute : path.isAbsolute = true) (checked : FileTree.checkText path = .ok ())
    (steps : FileTree.steps path.text = ["p", ".", name]) : (pairTree others).isFile path = true := by
  refine FileTree.isFile_iff_lookup.2
    ⟨_, content, .plain, FileTree.lookup_eq_ok_iff.2 ⟨checked, ?_, standing⟩, rfl⟩
  rw [steps, FileTree.origin, if_pos absolute]
  exact .enter (by decide) rfl (.stay (.last isName fun found held =>
    ⟨content, .plain, Option.some.inj (held.symm.trans standing)⟩))

theorem resolve?_pairTree :
    let resolver := Resolver.ofProject ⟨"/p"⟩ [⟨"@", "."⟩] ["a.ts", "b.ts"]
    resolver.resolve? (pairTree others)
        ⟨⟨"/p/a.ts"⟩, "a.ts", moduleText ["b"], .typeScript⟩ "./b" = some "b.ts" ∧
      resolver.resolve? (pairTree others)
        ⟨⟨"/p/b.ts"⟩, "b.ts", aliasedText, .typeScript⟩ "@/a" = some "a.ts" := by
  intro resolver
  have first : (pairTree others).isFile ⟨"/p/./b.ts"⟩ = true :=
    isFile_pairTree others "b.ts" (by decide) rfl (by decide) (by decide) (by decide)
  have second : (pairTree others).isFile ⟨"/p/./a.ts"⟩ = true :=
    isFile_pairTree others "a.ts" (by decide) rfl (by decide) (by decide) (by decide)
  constructor
  · have unaliased : AliasTable.rewrite? [⟨"@", "."⟩] "./b" = none := by decide
    have folder : (Path.mk "/p/a.ts").parent? = some ⟨"/p"⟩ := by decide
    have probed : Resolver.probes .typeScript (Path.join ⟨"/p"⟩ "./b") =
        ⟨"/p/./b.ts"⟩ :: (Resolver.probes .typeScript (Path.join ⟨"/p"⟩ "./b")).tail := by decide
    have led : resolver.path? (pairTree others)
        ⟨⟨"/p/a.ts"⟩, "a.ts", moduleText ["b"], .typeScript⟩ "./b" = some ⟨"/p/./b.ts"⟩ := by
      simp only [resolver, Resolver.path?, Resolver.scriptPath?, Resolver.ofProject, unaliased,
        SourceFile.folder, folder, Resolver.firstFile?, Option.getD_some]
      rw [if_pos (by decide), probed, List.find?_cons_of_pos first]
    rw [Resolver.resolve?, led, Option.bind_some]
    decide
  · have aliased : AliasTable.rewrite? [⟨"@", "."⟩] "@/a" = some "./a" := by decide
    have root : resolver.root.toPath = ⟨"/p"⟩ := by decide
    have probed : Resolver.probes .typeScript (Path.join ⟨"/p"⟩ "./a") =
        ⟨"/p/./a.ts"⟩ :: (Resolver.probes .typeScript (Path.join ⟨"/p"⟩ "./a")).tail := by decide
    have led : resolver.path? (pairTree others)
        ⟨⟨"/p/b.ts"⟩, "b.ts", aliasedText, .typeScript⟩ "@/a" = some ⟨"/p/./a.ts"⟩ := by
      have aliases : resolver.aliases = [⟨"@", "."⟩] := rfl
      simp only [Resolver.path?, Resolver.scriptPath?, aliases, aliased, root, Resolver.firstFile?]
      rw [probed, List.find?_cons_of_pos second]
    rw [Resolver.resolve?, led, Option.bind_some]
    decide

theorem ends_pairGraph :
    (pairGraph others).edges.map (·.ends) = [("a.ts", "b.ts"), ("b.ts", "a.ts")] := by
  have isStem : ∀ s ∈ ["b"], IsStem s := List.forall_mem_singleton.2 ⟨by decide, by decide⟩
  have first : Extract.references .typeScript (moduleText ["b"]) = [⟨"./b", .import, 1⟩] :=
    references_moduleText isStem
  have second : Extract.references .typeScript aliasedText = [⟨"@/a", .import, 1⟩] := by
    decide +kernel
  obtain ⟨forth, back⟩ := resolve?_pairTree others
  have linked : Graph.linksFor (pairTree others) ⟨"/p"⟩ [⟨"@", "."⟩] pairFiles =
      [⟨"a.ts", "b.ts", .import⟩, ⟨"b.ts", "a.ts", .import⟩] := by
    simp [Graph.linksFor, linksOf, linksOfFile_eq_filterMap, pairFiles, first, second, forth, back]
  rw [pairGraph, Graph.map_ends_assemble, linked]
  rfl

theorem provides_pairGraph : Provides (pairTree others) pairSource (pairGraph others) :=
  .scanned rfl (scan_pairTree others)

theorem moderate_pairSource : pairSource.Moderate (pairTree others) := by
  intro _ location entry led
  have standing : (pairTree others).top.find? ["p"] = some (.folder pairEntries) := rfl
  cases (FileTree.lookup_topFolder standing).symm.trans led
  decide

theorem exitCode_scan_pairTree {isQuiet : Bool} {target : String} {location : Location}
    (writable : (pairTree others).writable ⟨target⟩ = .ok location) :
    (run (pairTree others) ⟨isQuiet, .scan pairSource (some target)⟩).exitCode = 0 := by
  refine (carriedOut_run rfl).exitCode_eq_zero (provides_pairGraph others) (fun asked same => ?_)
    (List.forall_mem_nil _)
  cases same
  exact ⟨_, writable⟩

/-- The path to a file beside the project. -/
theorem writable_beside (old : ByteArray) (mode : Mode) (writable : mode.isWritable = true) :
    (pairTree [("g.json", .file old mode)]).writable ⟨"/g.json"⟩ = .ok ["g.json"] := by
  have steps : FileTree.steps "/g.json" = ["g.json"] := by decide
  refine FileTree.writable_eq_ok_iff.2 ⟨by decide, by decide, ?_, nofun, writable⟩
  rw [steps]
  exact .last (by decide) fun found standing => ⟨_, _, (Option.some.inj standing).symm⟩

end Pair

/-- The graph of the project is stored beside a file that stays as it is. -/
theorem run_effects_scan :
    let kept : Entry := .file ⟨#[7]⟩
    let tree := pairTree [("kept", kept)]
    let invocation : Invocation := ⟨true, .scan pairSource (some "../g.json")⟩
    let outcome := run tree invocation
    tree.HasHere ∧ invocation.command.source? = some pairSource ∧ pairSource.Moderate tree ∧
      tree.Stores ⟨"../g.json"⟩ ∧ outcome.exitCode = 0 ∧ outcome.errors = "" ∧
      (outcome.tree.top.find? ["kept"]).map Entry.surface = some kept ∧
      ∃ g, Provides tree pairSource g ∧
        g.edges.map (·.ends) = [("a.ts", "b.ts"), ("b.ts", "a.ts")] ∧
        Graph.load outcome.tree ⟨"../g.json"⟩ = .ok g := by
  intro kept tree invocation outcome
  have hasHere : tree.HasHere := ⟨pairEntries, rfl⟩
  have about : invocation.command.source? = some pairSource := rfl
  have writable : tree.writable ⟨"../g.json"⟩ = .ok ["g.json"] := by
    have steps : FileTree.steps "../g.json" = ["..", "g.json"] := by decide
    refine FileTree.writable_eq_ok_iff.2 ⟨by decide, by decide, ?_, nofun, rfl⟩
    rw [steps]
    exact .up (.last (by decide) fun found standing => by cases standing)
  have stores : tree.Stores ⟨"../g.json"⟩ := ⟨_, writable, Mode.isFaithful_plain⟩
  have provides := provides_pairGraph [("kept", kept)]
  have moderate := moderate_pairSource [("kept", kept)]
  have zero : outcome.exitCode = 0 := exitCode_scan_pairTree _ writable
  obtain ⟨same, loaded, -, -, -, -, silent⟩ := run_effects hasHere about
  refine ⟨hasHere, about, moderate, stores, zero, silent zero, ?_, _, provides, ends_pairGraph _,
    loaded _ _ rfl zero provides moderate stores⟩
  cases same ["kept"] with
  | inl kept => exact kept
  | inr target =>
    obtain ⟨-, target, asked, there⟩ := target
    cases asked
    exact absurd (Except.ok.inj (writable.symm.trans there)) (by decide)

/-- A device that drops what is written to it is written without a fault. -/
theorem run_effects_device :
    ¬ ∀ (tree : FileTree) (invocation : Invocation) (source : GraphSource) (target : String)
        (g : Graph), tree.HasHere → invocation.command.source? = some source →
      invocation.command.target? = some target → (run tree invocation).exitCode = 0 →
      Provides tree source g → source.Moderate tree →
      Graph.load (run tree invocation).tree ⟨target⟩ = .ok g := by
  intro all
  let device : Mode := ⟨false, true, true, fun _ => .empty⟩
  let others := [("g.json", Entry.file .empty device)]
  let invocation : Invocation := ⟨false, .scan pairSource (some "/g.json")⟩
  have hasHere : (pairTree others).HasHere := ⟨pairEntries, rfl⟩
  have writable := writable_beside .empty device rfl
  have zero : (run (pairTree others) invocation).exitCode = 0 := exitCode_scan_pairTree _ writable
  have provides := provides_pairGraph others
  have loaded := all (pairTree others) invocation pairSource "/g.json" _ hasHere rfl rfl zero provides
    (moderate_pairSource others)
  have carriedOut : CarriedOut (pairTree others) pairSource invocation.command _ := carriedOut_run rfl
  obtain ⟨g, location, -, writable', filled⟩ := carriedOut.exists_fill_of_target rfl zero
  -- Nothing is in the device afterwards, and that is no document.
  have led := FileTree.lookup_fill hasHere writable' g.render.toUTF8
  obtain rfl := Except.ok.inj (writable'.symm.trans writable)
  have read : (run (pairTree others) invocation).tree.readText ⟨"/g.json"⟩ = .ok "" := by
    rw [filled, FileTree.readText, led]
    rfl
  have parsed : Graph.parse "" = .error .truncated := rfl
  rw [Graph.load, read] at loaded
  simp only [parsed] at loaded
  cases loaded

end FileGraph.CommandLine
