import FileGraph.Proofs.Graph.Rescan
import FileGraph.Proofs.Run

/-! # A stored graph answers like a scan

A scan that writes over a file outside of the project leaves a tree of which another scan says the
same, so that it does not matter which of the two a command takes its graph from.

* `GraphSource.configPath`, `GraphSource.aliasPath`: the documents that a scan goes by.
* `GraphSource.Apart`: a place that is neither in the project nor that of one of these documents.
* `scan_configOf_overwritten`: a scan after a file at such a place was overwritten.
* `run_stored`: commands after a scan that stores its graph.
-/

namespace FileGraph.CommandLine

namespace GraphSource

def configPath (source : GraphSource) : Path :=
  match source.config with
  | some path => ⟨path⟩
  | none => Path.join ⟨source.path⟩ Config.fileName

def aliasPath (tree : FileTree) (source : GraphSource) (location : Location) : Path :=
  location.toPath.join (optionsOf (configOf tree source) source).aliasFile

/-- A place that is not in the project, and where neither its configuration nor its aliases stand. -/
structure Apart (tree : FileTree) (source : GraphSource) (place : Location) : Prop where
  outside : ∀ location entry, tree.lookup ⟨source.path⟩ = .ok (location, entry) →
    ¬ location <+: place
  notConfig : ∀ entry, tree.lookup source.configPath ≠ .ok (place, entry)
  notAliases : ∀ location entry, tree.lookup ⟨source.path⟩ = .ok (location, entry) →
    ∀ document, tree.lookup (aliasPath tree source location) ≠ .ok (place, document)

end GraphSource

theorem configOf_eq (tree : FileTree) (source : GraphSource) :
    configOf tree source = (Config.read tree source.configPath).toOption := by
  unfold configOf GraphSource.configPath
  cases source.config <;> rfl

/-- Looking at files side by side does not change what is found. -/
theorem scan_optionsOf (tree : FileTree) (config : Option Config) (source source' : GraphSource)
    (root : Path) :
    Graph.scan tree (optionsOf config source) root =
      Graph.scan tree (optionsOf config source') root := by
  have aliasFile : (optionsOf config source).aliasFile = (optionsOf config source').aliasFile := by
    unfold optionsOf
    dsimp only
    split <;> split <;> rfl
  simp only [Graph.scan, aliasFile]

/-! ## Writing over a file -/

section Overwrite

variable {tree : FileTree} {source : GraphSource} {path : Path} {place : Location}
  (new : ByteArray) {old : ByteArray} {mode : Mode} (hasHere : tree.HasHere)
  (writable : tree.writable path = .ok place)
  (standing : tree.top.find? place = some (.file old mode)) (apart : source.Apart tree place)

include hasHere writable standing apart

theorem configOf_overwritten :
    configOf (tree.fill place new) source = configOf tree source := by
  rw [configOf_eq, configOf_eq, Config.read, Config.read,
    FileTree.readText_overwritten new hasHere writable standing (apart.notConfig _)]

/-- A later scan gives the same graph. -/
theorem scan_configOf_overwritten {g : Graph}
    (found : Graph.scan tree (optionsOf (configOf tree source) source) ⟨source.path⟩ = .ok g) :
    Graph.scan (tree.fill place new)
      (optionsOf (configOf (tree.fill place new) source) source) ⟨source.path⟩ = .ok g := by
  obtain ⟨location, entries, -, -, led, -⟩ := Graph.scan_eq_ok_iff.1 found
  rw [configOf_overwritten new hasHere writable standing apart, ← found]
  exact Graph.scan_overwritten new hasHere writable standing led (apart.outside _ _ led)
    (apart.notAliases _ _ led _)

end Overwrite

/-! ## Commands on a stored graph -/

/-- Commands answer alike from two sources of one graph that are for the same project. -/
theorem runAnswer_congr {tree : FileTree} {source source' : GraphSource} {g : Graph}
    (provides : Provides tree source g) (provides' : Provides tree source' g)
    (config : configOf tree source = configOf tree source') (format : Option OutputFormat)
    (answer : Graph → OutputFormat → Answer) :
    runAnswer tree source format answer = runAnswer tree source' format answer := by
  simp only [runAnswer, obtain_eq_ok_iff.2 provides, obtain_eq_ok_iff.2 provides', config]

theorem writable_of_lookup {tree : FileTree} {path : Path} {place location : Location} {found : Entry}
    (standing : tree.lookup path = .ok (place, found)) (writable : tree.writable path = .ok location) :
    location = place := by
  obtain ⟨-, leads, -⟩ := FileTree.lookup_eq_ok_iff.1 standing
  obtain ⟨-, -, leads', -⟩ := FileTree.writable_eq_ok_iff.1 writable
  exact Except.ok.inj (leads'.walk_eq.symm.trans leads.walk_eq)

/-- After a scan that writes its graph over a file outside of the project, questions are answered
from the stored graph as they are from a scan, and the stored graph is stored again as it is, if the file
can be read and holds what was written to it. -/
theorem run_stored {tree : FileTree} {path target : String} {config : Option String}
    {isQuiet isSequential : Bool} {place : Location} {old : ByteArray} {mode : Mode}
    (hasHere : tree.HasHere)
    (zero : (run tree ⟨isQuiet, .scan ⟨path, config, none, isSequential⟩ (some target)⟩).exitCode = 0)
    (standing : tree.lookup ⟨target⟩ = .ok (place, .file old mode)) (faithful : mode.IsFaithful)
    (apart : GraphSource.Apart tree ⟨path, config, none, isSequential⟩ place)
    (moderate : GraphSource.Moderate tree ⟨path, config, none, isSequential⟩) :
    let tree' := (run tree ⟨isQuiet, .scan ⟨path, config, none, isSequential⟩ (some target)⟩).tree
    let fresh (isSequential : Bool) : GraphSource := ⟨path, config, none, isSequential⟩
    let stored (isSequential : Bool) : GraphSource := ⟨path, config, some target, isSequential⟩
    (∀ isQuiet a b format,
      run tree' ⟨isQuiet, .summary (stored a) format⟩ =
        run tree' ⟨isQuiet, .summary (fresh b) format⟩) ∧
      (∀ isQuiet a b question format,
        run tree' ⟨isQuiet, .query (stored a) question format⟩ =
          run tree' ⟨isQuiet, .query (fresh b) question format⟩) ∧
      ∀ isQuiet a again location, tree'.writable ⟨again⟩ = .ok location →
        let outcome := run tree' ⟨isQuiet, .scan (stored a) (some again)⟩
        outcome.exitCode = 0 ∧ ∃ text, tree'.readText ⟨target⟩ = .ok text ∧
          outcome.tree = tree'.fill location text.toUTF8 ∧
          (tree'.Stores ⟨again⟩ → outcome.tree.readText ⟨again⟩ = .ok text) := by
  intro tree' fresh stored
  have carriedOut : CarriedOut tree (fresh isSequential) _
      (run tree ⟨isQuiet, .scan (fresh isSequential) (some target)⟩) := carriedOut_run rfl
  obtain ⟨g, location, provides, writable, filled⟩ := carriedOut.exists_fill_of_target rfl zero
  -- The file that is written is the one that was there.
  obtain rfl := writable_of_lookup standing writable
  obtain ⟨-, -, there⟩ := FileTree.lookup_eq_ok_iff.1 standing
  have stores : tree.Stores ⟨target⟩ := by
    refine ⟨location, writable, ?_⟩
    rwa [FileTree.modeAt, there]
  change tree' = _ at filled
  have text : tree'.readText ⟨target⟩ = .ok g.render :=
    carriedOut.readText_target hasHere rfl zero provides stores
  have rescanned : ∀ b, Provides tree' (fresh b) g := by
    intro b
    cases provides with
    | stored asked => cases asked
    | scanned _ found =>
      have again := scan_configOf_overwritten g.render.toUTF8 hasHere writable there apart found
      rw [← filled, scan_optionsOf _ _ _ (fresh b)] at again
      exact .scanned rfl again
  have loaded : ∀ a, Provides tree' (stored a) g := fun a =>
    .stored rfl (Graph.load_eq (provides.fits moderate) text)
  refine ⟨fun isQuiet a b format => ?_, fun isQuiet a b question format => ?_, ?_⟩
  · exact runAnswer_congr (loaded a) (rescanned b) rfl format fun g format =>
      .ok (summaryAnswer format g.summary)
  · exact runAnswer_congr (loaded a) (rescanned b) rfl format fun g format =>
      answer g format question
  · intro isQuiet a again location writable' outcome
    have carriedOut' : CarriedOut tree' (stored a) _ outcome := carriedOut_run rfl
    have zero' : outcome.exitCode = 0 := by
      refine carriedOut'.exitCode_eq_zero (loaded a) (fun other asked => ?_) (List.forall_mem_nil _)
      cases asked
      exact ⟨location, writable'⟩
    have hasHere' : tree'.HasHere := filled ▸ FileTree.hasHere_fill hasHere writable _
    obtain ⟨h, location', provides', writable'', filled'⟩ :=
      carriedOut'.exists_fill_of_target rfl zero'
    obtain rfl := provides'.unique (loaded a)
    obtain rfl := Except.ok.inj (writable''.symm.trans writable')
    exact ⟨zero', h.render, text, filled',
      carriedOut'.readText_target hasHere' rfl zero' (loaded a)⟩

/-! ## A graph beside its project -/

theorem apart_pairTree (others : List (String × Entry)) :
    pairSource.Apart (pairTree others) ["g.json"] := by
  have standing : (pairTree others).top.find? ["p"] = some (.folder pairEntries) := rfl
  have led := FileTree.lookup_topFolder standing
  have inside : ∀ name content, FileTree.IsPlain ⟨"/p/" ++ name⟩ →
      FileTree.steps ("/p/" ++ name) = ["p", name] →
      (pairTree others).top.find? ["p", name] = some (.file content) →
      ∀ entry, (pairTree others).lookup ⟨"/p/" ++ name⟩ ≠ .ok (["g.json"], entry) := by
    intro name content plain steps held entry other
    have document := plain.lookup_eq (steps.symm ▸ held)
    rw [steps] at document
    obtain ⟨same, -⟩ := Prod.mk.inj (Except.ok.inj (document.symm.trans other))
    simp at same
  have config : pairSource.configPath = ⟨"/p/" ++ "polyglot-depgraph.toml"⟩ := by decide
  have aliases : pairSource.aliasPath (pairTree others) ["p"] = ⟨"/p/" ++ "jsconfig.json"⟩ := by
    rw [GraphSource.aliasPath, configOf_pairTree]
    decide
  exact {
    outside := by
      intro location entry other
      cases led.symm.trans other
      decide
    notConfig := by
      rw [config]
      exact inside _ _ (by decide) (by decide) rfl
    notAliases := by
      intro location entry other
      cases led.symm.trans other
      rw [aliases]
      exact inside _ _ (by decide) (by decide) rfl }

theorem lookup_beside (old : ByteArray) (mode : Mode) :
    (pairTree [("g.json", .file old mode)]).lookup ⟨"/g.json"⟩ = .ok (["g.json"], .file old mode) := by
  have plain : FileTree.IsPlain ⟨"/g.json"⟩ := by decide
  exact plain.lookup_eq rfl

/-- The graph of a project is written over a file beside it. -/
theorem run_stored_beside :
    let old : ByteArray := ⟨#[7]⟩
    let tree := pairTree [("g.json", .file old)]
    let stored : GraphSource := { pairSource with graph := some "/g.json" }
    let scan := run tree ⟨false, .scan pairSource (some "/g.json")⟩
    tree.HasHere ∧ scan.exitCode = 0 ∧
      tree.lookup ⟨"/g.json"⟩ = .ok (["g.json"], .file old) ∧ Mode.plain.IsFaithful ∧
      pairSource.Apart tree ["g.json"] ∧ pairSource.Moderate tree ∧
      (∃ g, Provides tree pairSource g ∧
        g.edges.map (·.ends) = [("a.ts", "b.ts"), ("b.ts", "a.ts")]) ∧
      ∀ question, run scan.tree ⟨false, .query stored question none⟩ =
        run scan.tree ⟨false, .query pairSource question none⟩ := by
  intro old tree stored scan
  have hasHere : tree.HasHere := ⟨pairEntries, rfl⟩
  have standing := lookup_beside old .plain
  have zero : scan.exitCode = 0 := exitCode_scan_pairTree _ (writable_beside old .plain rfl)
  have apart := apart_pairTree [("g.json", .file old)]
  have moderate := moderate_pairSource [("g.json", .file old)]
  obtain ⟨-, queries, -⟩ :=
    run_stored hasHere zero standing Mode.isFaithful_plain apart moderate
  exact ⟨hasHere, zero, standing, Mode.isFaithful_plain, apart, moderate,
    ⟨_, provides_pairGraph _, ends_pairGraph _⟩, fun question =>
      queries false true true question none⟩

/-- A scan writes its graph into a file that is closed to reading, but no command reads it from there. -/
theorem run_stored_unreadable :
    ¬ ∀ (tree : FileTree) (path target : String) (config : Option String)
        (isQuiet isSequential : Bool) (place : Location) (old : ByteArray) (mode : Mode),
      let scan := run tree ⟨isQuiet, .scan ⟨path, config, none, isSequential⟩ (some target)⟩
      tree.HasHere → scan.exitCode = 0 → tree.lookup ⟨target⟩ = .ok (place, .file old mode) →
      mode.isRegular = true → GraphSource.Apart tree ⟨path, config, none, isSequential⟩ place →
      GraphSource.Moderate tree ⟨path, config, none, isSequential⟩ →
      ∀ isQuiet a b format,
        run scan.tree ⟨isQuiet, .summary ⟨path, config, some target, a⟩ format⟩ =
          run scan.tree ⟨isQuiet, .summary ⟨path, config, none, b⟩ format⟩ := by
  intro all
  let mode : Mode := { Mode.plain with isReadable := false }
  let tree := pairTree [("g.json", .file .empty mode)]
  let invocation : Invocation := ⟨false, .scan pairSource (some "/g.json")⟩
  have hasHere : tree.HasHere := ⟨pairEntries, rfl⟩
  have standing := lookup_beside .empty mode
  have zero : (run tree invocation).exitCode = 0 :=
    exitCode_scan_pairTree _ (writable_beside .empty mode rfl)
  have apart := apart_pairTree [("g.json", .file .empty mode)]
  have same := all tree "/p" "/g.json" none false true _ _ _ hasHere zero standing rfl apart
    (moderate_pairSource _) false true true none
  have carriedOut : CarriedOut tree pairSource invocation.command _ := carriedOut_run rfl
  obtain ⟨g, location, provides, writable, filled⟩ := carriedOut.exists_fill_of_target rfl zero
  obtain rfl := writable_of_lookup standing writable
  obtain ⟨-, -, there⟩ := FileTree.lookup_eq_ok_iff.1 standing
  have fresh : (run (run tree invocation).tree ⟨false, .summary pairSource none⟩).exitCode = 0 := by
    cases provides with
    | stored asked => cases asked
    | scanned _ found =>
      have again := scan_configOf_overwritten g.render.toUTF8 hasHere writable there apart found
      rw [← filled] at again
      exact (carriedOut_run rfl).exitCode_eq_zero (.scanned rfl again) nofun nofun
  have stored : (run (run tree invocation).tree
      ⟨false, .summary { pairSource with graph := some "/g.json" } none⟩).exitCode = 1 := by
    refine (carriedOut_run rfl).exitCode_eq_one_iff.2 (.inl ?_)
    rintro ⟨h, provided⟩
    cases provided with
    | scanned asked => cases asked
    | stored asked loaded =>
      obtain rfl := Option.some.inj asked
      have led := FileTree.lookup_fill hasHere writable g.render.toUTF8
      have read : (run tree invocation).tree.readText ⟨"/g.json"⟩ = .error .denied := by
        rw [filled, FileTree.readText, led]
        rfl
      rw [Graph.load, read] at loaded
      cases loaded
  cases stored.symm.trans ((congrArg Outcome.exitCode same).trans fresh)

end FileGraph.CommandLine
