import FileGraph.Proofs.Graph.Rescan
import FileGraph.Proofs.Path.Join
import FileGraph.Proofs.Run
import FileGraph.Proofs.SourceFile

/-! # The file that is asked about

A file may be given with pieces `./` in front and with backslashes for slashes.  Names of files may
hold backslashes as well; a file of that kind cannot be asked about.

* `not_mem_cleanId`, `bare_cleanId`, `cleanId_cleanId`: what the id that is looked for is like.
* `Graph.exists_names_of_scan`: the ids of a scan are lists of names.
* `CommandLine.run_connected_scanned`: every scanned file without a backslash can be asked about.
-/

namespace FileGraph

/-! ## Cleaning -/

theorem not_mem_cleanId (file : String) : '\\' ∉ (cleanId file).toList := by
  rw [cleanId, String.toList_ofList]
  intro member
  obtain ⟨c, -, same⟩ := List.mem_map.1 member
  split at same
  next => cases same
  next other => exact other same

theorem cleanId_eq_self {file : String} (bare : ¬ ['.', '/'] <+: file.toList)
    (plain : '\\' ∉ file.toList) : cleanId file = file := by
  have kept : file.toList.map (fun c => if c = '\\' then '/' else c) = file.toList :=
    (List.map_congr_left fun c member => if_neg (ne_of_mem_of_not_mem member plain)).trans
      (List.map_id _)
  rw [cleanId, Text.trimHere_of_bare bare, kept, String.ofList_toList]

/-- Backslashes are replaced last, so what is left can begin with `./` only if it was `.\` before. -/
theorem bare_cleanId {file : String} (apart : ¬ ['.', '\\'] <+: Text.trimHere file.toList) :
    ¬ ['.', '/'] <+: (cleanId file).toList := by
  rw [cleanId, String.toList_ofList]
  have bare := Text.bare_trimHere file.toList
  generalize Text.trimHere file.toList = text at *
  rintro ⟨rest, same⟩
  match text with
  | [] => cases same
  | [c] => simp at same
  | c :: d :: later =>
    rw [List.map_cons, List.map_cons] at same
    obtain ⟨first, same⟩ := List.cons.inj same
    obtain ⟨second, -⟩ := List.cons.inj same
    obtain rfl : '.' = c := by
      split at first
      next => cases first
      next => exact first
    split at second
    next back => exact apart ⟨later, back ▸ rfl⟩
    next => exact bare ⟨later, second ▸ rfl⟩

theorem cleanId_cleanId {file : String} (apart : ¬ ['.', '\\'] <+: Text.trimHere file.toList) :
    cleanId (cleanId file) = cleanId file :=
  cleanId_eq_self (bare_cleanId apart) (not_mem_cleanId file)

/-! ## Ids of a scan -/

theorem Path.bare_intercalate {names : List String} (nonempty : names ≠ [])
    (isName : ∀ n ∈ names, Path.IsName n) : ¬ ['.', '/'] <+: ("/".intercalate names).toList := by
  rintro ⟨rest, written⟩
  have cut := Path.splitOn_joined (fun n member => (isName n member).slashless) nonempty
  rw [String.toList_intercalate] at written
  change ['.'] ++ '/' :: rest = ['/'].intercalate (names.map (·.toList)) at written
  rw [← written, Text.splitOn_append_cons] at cut
  have first : ['.'] ∈ names.map (·.toList) := cut ▸ List.mem_cons_self
  obtain ⟨name, member, same⟩ := List.mem_map.1 first
  exact (isName name member).ne_here (String.toList_inj.1 same)

namespace Graph

variable {tree : FileTree} {options : ScanOptions} {root : Path} {g : Graph}

theorem exists_names_of_scan (tidy : tree.top.Tidy) (found : scan tree options root = .ok g)
    {id : String} (known : id ∈ g.ids) :
    ∃ names, names ≠ [] ∧ (∀ n ∈ names, Path.IsName n) ∧ id = "/".intercalate names := by
  obtain ⟨place, entries, location, files, led, canonical, collected, rfl⟩ :=
    scan_eq_ok_iff.1 found
  obtain rfl := FileTree.canonicalize_eq_lookup canonical led
  obtain ⟨-, -, standing⟩ := FileTree.lookup_eq_ok_iff.1 led
  rw [Graph.ids, map_id_assemble] at known
  obtain ⟨file, member, rfl⟩ := List.mem_map.1 known
  obtain ⟨names, nonempty, isName, -, written, -⟩ :=
    SourceFile.of_mem_below tidy standing collected member
  exact ⟨names, nonempty, isName, written⟩

theorem cleanId_eq_self_iff_of_scan (tidy : tree.top.Tidy)
    (found : scan tree options root = .ok g) {id : String} (known : id ∈ g.ids) :
    cleanId id = id ↔ '\\' ∉ id.toList := by
  obtain ⟨names, nonempty, isName, rfl⟩ := exists_names_of_scan tidy found known
  exact ⟨fun same => same ▸ not_mem_cleanId _,
    cleanId_eq_self (Path.bare_intercalate nonempty isName)⟩

end Graph

/-! ## A folder with one file -/

theorem FileTree.tidy_single {name : String} (isName : Path.IsName name) (bytes : ByteArray) :
    (FileTree.single [(name, .file bytes)]).top.Tidy := by
  have inner : (Entry.folder [(name, .file bytes)]).Tidy :=
    .folder (List.nodup_singleton _) (List.forall_mem_singleton.2 isName)
      (List.forall_mem_singleton.2 .file)
  have isName' : Path.IsName "p" := by decide
  exact .folder (List.nodup_singleton _) (List.forall_mem_singleton.2 isName')
    (List.forall_mem_singleton.2 inner)

theorem Graph.exists_scan_single (options : Graph.ScanOptions) (name content : String)
    (language : Language)
    (ending : ((Location.toPath ["p"]).join name).extension?.bind Language.ofExtension? =
      some language) (fits : FileTree.fits ((Location.toPath ["p"]).join name) = true) :
    ∃ g, Graph.scan (.single [(name, .file content.toUTF8)]) options ⟨"/p"⟩ = .ok g ∧
      g.ids = [name] := by
  have made : SourceFile.admit? (Location.toPath ["p"]) [name] (.file content.toUTF8) =
      some ⟨(Location.toPath ["p"]).join name, name, content, language⟩ :=
    SourceFile.admit?_file_eq_some_iff.2 ⟨rfl, rfl, fits, ending, dif_pos content.isValidUTF8, rfl,
      String.intercalate_singleton.symm⟩
  have sorted : (Entry.folder [(name, .file content.toUTF8)]).ordered =
      .folder [(name, .file content.toUTF8)] :=
    Entry.ordered_folder (List.pairwise_singleton _ _) (by simp [Entry.ordered])
  have opened : FileTree.openFolder (.single [(name, .file content.toUTF8)]) ["p"]
      (Location.toPath ["p"]) = .ok () := rfl
  have collected : SourceFile.below (.single [(name, .file content.toUTF8)]) ["p"]
      (Location.toPath ["p"]) (.folder [(name, .file content.toUTF8)]) =
        .ok [⟨(Location.toPath ["p"]).join name, name, content, language⟩] := by
    have met : (Entry.folder [(name, .file content.toUTF8)]).met =
        [([], .folder []), ([name], .file content.toUTF8)] := by
      simp [Entry.met, Entry.metIn, Entry.isEntered, Entry.isFolder]
    rw [SourceFile.below, sorted, met]
    refine SourceFile.gather_eq_ok_iff.2
      ⟨List.forall_mem_cons.2 ⟨opened, List.forall_mem_singleton.2 rfl⟩, ?_⟩
    rw [List.filterMap_cons_none rfl]
    simp only [List.filterMap_cons, made, List.filterMap_nil]
  exact ⟨_, scan_eq_ok_iff.2 ⟨_, _, _, _, FileTree.lookup_single _, FileTree.canonicalize_single _,
    collected, rfl⟩, by rw [Graph.ids, Graph.map_id_assemble]; rfl⟩

/-! ## Asking about a file -/

namespace CommandLine

theorem run_connected {tree : FileTree} {source : GraphSource} {g : Graph}
    (provides : Provides tree source g) (isQuiet : Bool) (file : String) (direction : Direction)
    (format : Option OutputFormat) :
    run tree ⟨isQuiet, .query source (.connected file direction) format⟩ =
      if cleanId file ∈ g.ids then
        .success tree (filesAnswer (outputFormat format (configOf tree source))
          (g.connected (cleanId file) direction))
      else .failure tree 2 ("Unknown file: " ++ file) := by
  simp only [run, runAnswer, obtain_eq_ok_iff.2 provides, answer, node?_isNone_iff]
  by_cases known : cleanId file ∈ g.ids
  · rw [if_neg (not_not.2 known), if_pos known]
  · rw [if_pos known, if_neg known]

/-- The id that a file argument is cleaned to has no backslash, does not begin with `./` and is
cleaned already, unless the argument goes on with `.\` behind its pieces `./`. An id of a scanned
graph is cleaned to itself exactly if it has no backslash, and then a question for the files that are
joined to it is answered. -/
theorem run_connected_scanned {tree : FileTree} (tidy : tree.top.Tidy) :
    (∀ file, '\\' ∉ (cleanId file).toList) ∧
      (∀ file, ¬ ['.', '\\'] <+: Text.trimHere file.toList →
        ¬ ['.', '/'] <+: (cleanId file).toList ∧ cleanId (cleanId file) = cleanId file) ∧
      (∀ options root g, Graph.scan tree options root = .ok g → ∀ id ∈ g.ids,
        (cleanId id = id ↔ '\\' ∉ id.toList)) ∧
      ∀ source g, source.graph = none → Provides tree source g →
        ∀ id ∈ g.ids, '\\' ∉ id.toList → ∀ isQuiet direction format,
          run tree ⟨isQuiet, .query source (.connected id direction) format⟩ =
            .success tree (filesAnswer (outputFormat format (configOf tree source))
              (g.connected id direction)) := by
  refine ⟨not_mem_cleanId, fun file apart => ⟨bare_cleanId apart, cleanId_cleanId apart⟩,
    fun options root g found id known => Graph.cleanId_eq_self_iff_of_scan tidy found known, ?_⟩
  intro source g fresh provides id known plain isQuiet direction format
  cases provides with
  | stored stored => cases fresh.symm.trans stored
  | scanned _ found =>
    have kept := (Graph.cleanId_eq_self_iff_of_scan tidy found known).2 plain
    rw [run_connected (.scanned fresh found), kept, if_pos known]

/-- A file that is asked about under its id. -/
theorem run_connected_scanned_single :
    let tree : FileTree := .single [("a.ts", .file "".toUTF8)]
    let source : GraphSource := ⟨"/p", none, none, false⟩
    tree.top.Tidy ∧ cleanId (cleanId "././src\\a.ts") = cleanId "././src\\a.ts" ∧
      ∃ g, Provides tree source g ∧ g.ids = ["a.ts"] ∧ cleanId "a.ts" = "a.ts" ∧
        (run tree ⟨false, .query source (.connected "a.ts" .both) (some .json)⟩).exitCode = 0 := by
  intro tree source
  have tidy : tree.top.Tidy := FileTree.tidy_single (by decide) _
  obtain ⟨-, cleaned, kept, answered⟩ := run_connected_scanned tidy
  obtain ⟨g, found, ids⟩ := Graph.exists_scan_single (optionsOf (configOf tree source) source)
    "a.ts" "" .typeScript (by decide) (by decide)
  have provides : Provides tree source g := .scanned rfl found
  have known : "a.ts" ∈ g.ids := ids ▸ List.mem_singleton_self _
  refine ⟨tidy, (cleaned _ (by decide)).2, g, provides, ids,
    (kept _ _ g found _ known).2 (by decide), ?_⟩
  rw [answered source g rfl provides _ known (by decide)]
  rfl

/-- A file whose name has a backslash is taken for one in a folder and not found. A backslash that is
replaced behind a dot leaves a piece `./` in front. -/
theorem run_connected_scanned_backslash :
    let tree : FileTree := .single [("a\\b.ts", .file "".toUTF8)]
    let source : GraphSource := ⟨"/p", none, none, false⟩
    tree.top.Tidy ∧
      (∃ g, Provides tree source g ∧ "a\\b.ts" ∈ g.ids ∧ cleanId "a\\b.ts" = "a/b.ts" ∧
        run tree ⟨false, .query source (.connected "a\\b.ts" .both) none⟩ =
          .failure tree 2 "Unknown file: a\\b.ts") ∧
      cleanId ".\\a" = "./a" ∧ cleanId (cleanId ".\\a") ≠ cleanId ".\\a" := by
  intro tree source
  have tidy : tree.top.Tidy := FileTree.tidy_single (by decide) _
  obtain ⟨g, found, ids⟩ := Graph.exists_scan_single (optionsOf (configOf tree source) source)
    "a\\b.ts" "" .typeScript (by decide) (by decide)
  have provides : Provides tree source g := .scanned rfl found
  have cleaned : cleanId "a\\b.ts" = "a/b.ts" := by decide
  have unknown : cleanId "a\\b.ts" ∉ g.ids := by
    rw [ids, cleaned]
    decide
  refine ⟨tidy, ⟨g, provides, ids ▸ List.mem_singleton_self _, cleaned, ?_⟩, by decide, by decide⟩
  rw [run_connected provides, if_neg unknown]
  rfl

end CommandLine

end FileGraph
