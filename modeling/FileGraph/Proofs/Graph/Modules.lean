import FileGraph.Proofs.Graph.Aggregate
import FileGraph.Proofs.Graph.Rescan
import FileGraph.Proofs.SourceFile
import FileGraph.Proofs.Statement.Script
import Mathlib.Data.List.Count

/-! # The graph of a folder of modules

A project whose root folder holds script modules that import each other, and nothing else, is
followed through all stages of a scan.

* `ModuleFolder`: such a project.
* `ShowsModules`: what a graph shows of the modules.
* `ModulesInReach`: the paths of the project are not too long.
* `ModuleFolder.files_perm`: the source files that are collected.
* `ModuleFolder.resolve?_eq`: where an import leads.
* `ModuleFolder.linksOfFile_eq`: the links of one module.
* `Graph.scan_modules`: nodes, edges and circular files of the graph.
-/

namespace FileGraph

def moduleName (stem : String) : String :=
  stem ++ ".ts"

/-- A project whose root folder holds, in some order, a file for each stem that imports other
stems, and nothing else. The tree is one that a file system can hold. -/
structure ModuleFolder (tree : FileTree) (root : Path) (location : Location)
    (entries : List (String × Entry)) (stems : List String) (imports : String → List String) :
    Prop where
  wellFormed : tree.WellFormed
  found : tree.lookup root = .ok (location, .folder entries)
  nodup : stems.Nodup
  isStem : ∀ s ∈ stems, IsStem s
  imported : ∀ s ∈ stems, ∀ t ∈ imports s, IsStem t
  entries_perm : entries.Perm
    (stems.map fun s => (moduleName s, .file (moduleText (imports s)).toUTF8))

/-- A scan can ask for what is in a folder of modules: the folder can be listed by its canonical path, and
the paths by which one module is looked for from another are not too long. -/
structure ModulesInReach (tree : FileTree) (root : Path) (location : Location) (stems : List String) :
    Prop where
  canonical : tree.canonicalize root = .ok location
  listed : tree.isListed location = true
  fits : ∀ s ∈ stems, FileTree.fits (Location.toPath (location ++ [".", moduleName s])) = true

theorem ModulesInReach.opened {tree : FileTree} {root : Path} {location : Location}
    {stems : List String} (inReach : ModulesInReach tree root location stems) :
    tree.openFolder location location.toPath = .ok () := by
  obtain ⟨-, fits⟩ := FileTree.canonicalize_eq_ok_iff.1 inReach.canonical
  rw [FileTree.openFolder, fits location List.mem_cons_self, inReach.listed]
  rfl

def moduleFile (location : Location) (imports : String → List String) (stem : String) :
    SourceFile :=
  ⟨Location.toPath (location ++ [moduleName stem]), moduleName stem, moduleText (imports stem),
    .typeScript⟩

/-! ## Names of modules -/

theorem cutAtDot_moduleName {stem : String} (isStem : IsStem stem) :
    Path.cutAtDot (moduleName stem) = (stem, some "ts") := by
  have ending : ".ts" = "." ++ "ts" := by decide
  rw [moduleName, ending, ← String.append_assoc]
  exact Path.cutAtDot_append isStem.filled (by decide)

theorem moduleName_injective {s t : String} (same : moduleName s = moduleName t) : s = t := by
  rw [← String.toList_inj, moduleName, moduleName, String.toList_append,
    String.toList_append] at same
  exact String.toList_inj.1 (List.append_cancel_right same)

theorem IsStem.not_mem_moduleName {stem : String} (isStem : IsStem stem) {c : Char}
    (foreign : isStemChar c = false) (other : c ∉ ".ts".toList) :
    c ∉ (moduleName stem).toList := by
  rw [moduleName, String.toList_append, List.mem_append, not_or]
  exact ⟨isStem.not_mem foreign, other⟩

theorem IsStem.isName_append {stem ending : String} (isStem : IsStem stem)
    (slashless : '/' ∉ ending.toList) : Path.IsName (stem ++ ending) := by
  have first : (stem ++ ending).toList.head? ≠ some '.' := by
    -- The first character is one of the stem, which has no dots.
    obtain ⟨c, rest, shape⟩ := List.exists_cons_of_ne_nil isStem.filled
    rw [String.toList_append, shape, List.cons_append, List.head?_cons]
    intro same
    obtain rfl := Option.some.inj same
    exact isStem.not_mem (c := '.') (by decide) (shape ▸ List.mem_cons_self)
  have isSegment : Path.IsSegment stem := ⟨isStem.filled, isStem.not_mem (by decide)⟩
  refine ⟨isSegment.append slashless, ?_, ?_⟩
  · intro same
    exact first (same ▸ by decide)
  · intro same
    exact first (same ▸ by decide)

theorem IsStem.isName {stem : String} (isStem : IsStem stem) : Path.IsName stem := by
  have bare := isStem.isName_append (show '/' ∉ "".toList by decide)
  rwa [String.append_empty] at bare

theorem IsStem.isName_moduleName {stem : String} (isStem : IsStem stem) :
    Path.IsName (moduleName stem) :=
  isStem.isName_append (by decide)

theorem moduleName_ne {stem name : String} {ending : List Char} (theirs : ending <:+ name.toList)
    (long : 3 ≤ ending.length) (apart : ¬ ['.', 't', 's'] <:+ ending) : moduleName stem ≠ name := by
  rintro rfl
  have ours : ['.', 't', 's'] <:+ (moduleName stem).toList := by
    rw [moduleName, String.toList_append]
    exact List.suffix_append _ _
  exact apart (List.suffix_of_suffix_length_le ours theirs long)

theorem moduleFolder_single (stems : List String) (imports : String → List String)
    (nodup : stems.Nodup) (isStem : ∀ s ∈ stems, IsStem s)
    (imported : ∀ s ∈ stems, ∀ t ∈ imports s, IsStem t)
    (short : ∀ s ∈ stems, (moduleName s).utf8ByteSize ≤ FileTree.nameLimit) :
    let entries := stems.map fun s => (moduleName s, Entry.file (moduleText (imports s)).toUTF8)
    ModuleFolder (.single entries) ⟨"/p"⟩ ["p"] entries stems imports ∧
      ModulesInReach (.single entries) ⟨"/p"⟩ ["p"] stems := by
  intro entries
  have folderName : FileTree.IsFileName "p" := ⟨by decide, by decide, by decide⟩
  constructor
  · refine ⟨?_, FileTree.lookup_single entries, nodup, isStem, imported, .refl _⟩
    refine FileTree.wellNamed_folder (List.forall_mem_singleton.2 ⟨folderName, ?_⟩)
    refine FileTree.wellNamed_folder (List.forall_mem_map.2 fun s given => ?_)
    have zeroless := (isStem s given).not_mem_moduleName (c := '\x00') (by decide) (by decide)
    exact ⟨⟨(isStem s given).isName_moduleName, zeroless, short s given⟩, FileTree.wellNamed_file _ _⟩
  · refine ⟨FileTree.canonicalize_single entries, rfl, fun s given => ?_⟩
    have path : (Location.toPath (["p"] ++ [".", moduleName s])).text = "/p/./" ++ moduleName s := by
      rw [← String.toList_inj, Path.toList_toPath]
      simp
    have name := short s given
    rw [FileTree.fits, path, String.utf8ByteSize_append, decide_eq_true_iff]
    have limit : FileTree.nameLimit + "/p/./".utf8ByteSize ≤ FileTree.pathLimit := by decide
    omega

namespace ModuleFolder

variable {tree : FileTree} {root : Path} {location : Location} {entries : List (String × Entry)}
  {stems : List String} {imports : String → List String} {files : List SourceFile}
  (project : ModuleFolder tree root location entries stems imports)
  (inReach : ModulesInReach tree root location stems)
  (collected : SourceFile.below tree location location.toPath (.folder entries) = .ok files)

include project

/-! ## The folder -/

theorem folder : tree.top.find? location = some (.folder entries) := by
  have found := project.found
  rw [FileTree.lookup] at found
  cases located : tree.locate root with
  | error fault => simp [located, bind, Except.bind] at found
  | ok place =>
      simp only [located, bind, Except.bind] at found
      cases standing : tree.top.find? place with
      | none => simp [standing] at found
      | some entry =>
          simp only [standing, Except.ok.injEq, Prod.mk.injEq] at found
          obtain ⟨rfl, rfl⟩ := found
          exact standing

theorem names : ∀ s ∈ location, Path.IsName s :=
  fun name member => (project.wellFormed _ _ project.folder name member).toIsName

theorem segments : ∀ s ∈ location, Path.IsSegment s :=
  fun name member => (project.names name member).toIsSegment

theorem exists_of_lookup {name : String} {entry : Entry} (standing : entries.lookup name = some entry) :
    ∃ s ∈ stems, name = moduleName s ∧ entry = .file (moduleText (imports s)).toUTF8 := by
  obtain ⟨before, behind, rfl, -⟩ := List.lookup_eq_some_iff.1 standing
  have member := project.entries_perm.subset
    (List.mem_append_right before (List.mem_cons_self (a := (name, entry)) (l := behind)))
  obtain ⟨s, given, same⟩ := List.mem_map.1 member
  obtain ⟨rfl, rfl⟩ := Prod.mk.inj same
  exact ⟨s, given, rfl, rfl⟩

theorem lookup_moduleName {stem : String} (given : stem ∈ stems) :
    entries.lookup (moduleName stem) = some (.file (moduleText (imports stem)).toUTF8) := by
  cases standing : entries.lookup (moduleName stem) with
  | none =>
      have member : (moduleName stem, Entry.file (moduleText (imports stem)).toUTF8) ∈ entries :=
        project.entries_perm.mem_iff.2 (List.mem_map_of_mem given)
      have apart := List.lookup_eq_none_iff.1 standing _ member
      exact absurd apart (by simp)
  | some entry =>
      obtain ⟨s, _, same, rfl⟩ := project.exists_of_lookup standing
      rw [moduleName_injective same]

theorem lookup_eq_none {name : String} (apart : ∀ s ∈ stems, moduleName s ≠ name) :
    entries.lookup name = none := by
  cases standing : entries.lookup name with
  | none => rfl
  | some entry =>
      obtain ⟨s, given, same, -⟩ := project.exists_of_lookup standing
      exact absurd same.symm (apart s given)

theorem load_eq : AliasTable.load tree location.toPath "tsconfig.json" = .ok [] := by
  have isName : Path.IsName "tsconfig.json" := ⟨⟨by decide, by decide⟩, by decide, by decide⟩
  have missing : entries.lookup "tsconfig.json" = none :=
    project.lookup_eq_none fun s _ => moduleName_ne List.suffix_rfl (by decide) (by decide)
  have absent := FileTree.isFile_eq_false_of_missing project.wellFormed project.folder
    (List.forall_mem_nil (· = ".")) isName (List.forall_mem_nil Path.IsSegment) missing
  rw [List.nil_append] at absent
  unfold AliasTable.load
  dsimp only
  rw [Path.join_toPath project.segments (by decide)]
  rw [absent, if_neg Bool.false_ne_true]

/-! ## The source files -/

theorem join_eq {text : String} (relative : text.toList.head? ≠ some '/') :
    location.toPath.join text = Location.toPath (location ++ [text]) :=
  Path.join_toPath project.segments relative

theorem met_perm : (Entry.folder entries).ordered.met.Perm
    (([], .folder []) ::
      stems.map fun s => ([moduleName s], .file (moduleText (imports s)).toUTF8)) := by
  refine (Entry.met_ordered_perm _).trans ?_
  rw [Entry.met, Entry.metIn_eq_flatMap]
  refine ((project.entries_perm.flatMap_right _).trans (.of_eq ?_)).cons _
  rw [List.flatMap_map, List.map_eq_flatMap]
  refine List.flatMap_congr fun s _ => ?_
  have entered : Entry.isEntered (moduleName s) (.file (moduleText (imports s)).toUTF8) = true := rfl
  rw [if_pos entered, Entry.met]
  rfl

theorem exists_below (opened : tree.openFolder location location.toPath = .ok ()) :
    ∃ files, SourceFile.below tree location location.toPath (.folder entries) = .ok files := by
  refine ⟨_, SourceFile.gather_eq_ok_iff.2 ⟨fun item member => ?_, rfl⟩⟩
  cases List.mem_cons.1 (project.met_perm.subset member) with
  | inl top =>
      rw [top, SourceFile.enter_folder rfl, List.append_nil]
      exact opened
  | inr module =>
      obtain ⟨s, -, rfl⟩ := List.mem_map.1 module
      rfl

theorem admit?_eq {stem : String} (given : stem ∈ stems)
    (fits : FileTree.fits (Location.toPath (location ++ [moduleName stem])) = true) :
    SourceFile.admit? location.toPath [moduleName stem] (.file (moduleText (imports stem)).toUTF8) =
      some (moduleFile location imports stem) := by
  have isStem := project.isStem stem given
  have isName := isStem.isName_moduleName
  have relative : (moduleName stem).toList.head? ≠ some '/' := by
    intro first
    exact isName.slashless (List.mem_of_mem_head? first)
  have path : [moduleName stem].foldl Path.join location.toPath =
      Location.toPath (location ++ [moduleName stem]) := project.join_eq relative
  refine SourceFile.admit?_file_eq_some_iff.2 ⟨rfl, rfl, path ▸ fits, ?_, ?_, path.symm, ?_⟩
  · rw [path, Path.extension?, Path.fileName?_toPath project.names isName, Option.bind_some,
      cutAtDot_moduleName isStem]
    rfl
  · exact dif_pos (moduleText (imports stem)).isValidUTF8
  · rw [String.intercalate_singleton, moduleFile]

/-! ## Paths in the folder -/

omit project in
theorem toPath_append_slash (location : Location) (front behind : String) :
    Location.toPath (location ++ [front ++ "/" ++ behind]) =
      Location.toPath (location ++ [front, behind]) := by
  have texts : "/".intercalate [front ++ "/" ++ behind] = "/".intercalate [front, behind] := by
    simp [String.intercalate_cons_cons]
  by_cases top : location = []
  · subst top
    rw [Location.toPath, Location.toPath, List.nil_append, List.nil_append, texts]
  · rw [Location.toPath, Location.toPath, String.intercalate_append_of_ne_nil top (by simp),
      String.intercalate_append_of_ne_nil top (by simp), texts]

omit project in
theorem fits_of_fits_here {name : String}
    (fits : FileTree.fits (Location.toPath (location ++ [".", name])) = true) :
    FileTree.fits (Location.toPath (location ++ [name])) = true := by
  rw [List.append_cons, FileTree.fits, Path.text_toPath_append (by simp), decide_eq_true_iff,
    String.utf8ByteSize_append] at fits
  rw [FileTree.fits, decide_eq_true_iff]
  refine le_trans ?_ fits
  by_cases top : location = []
  · subst top
    have longer : "/".utf8ByteSize ≤ "/./".utf8ByteSize := by decide
    simpa [Location.toPath, String.utf8ByteSize_append] using longer
  · rw [Path.text_toPath_append top, Path.text_toPath_append top]
    simp only [String.utf8ByteSize_append]
    omega

omit project in
theorem withSuffix_toPath (location : Location) (name ending : String) :
    (Location.toPath (location ++ [name])).withSuffix ending =
      Location.toPath (location ++ [name ++ ending]) := by
  by_cases top : location = []
  · subst top
    simp [Location.toPath, Path.withSuffix, String.append_assoc]
  · rw [Path.withSuffix, Path.text_toPath_append top, String.append_assoc,
      ← Path.text_toPath_append top]

section Collected

include inReach collected

theorem files_perm : files.Perm (stems.map (moduleFile location imports)) := by
  obtain ⟨-, rfl⟩ := SourceFile.gather_eq_ok_iff.1 collected
  -- Files are collected in the order of their names, which the order of the stems need not follow.
  refine (project.met_perm.filterMap _).trans (.of_eq ?_)
  rw [List.filterMap_cons_none rfl, List.filterMap_map, ← List.filterMap_eq_map]
  exact List.filterMap_congr fun s given =>
    project.admit?_eq given (fits_of_fits_here (inReach.fits s given))

theorem relativePath_perm : (files.map (·.relativePath)).Perm (stems.map moduleName) := by
  refine ((project.files_perm inReach collected).map _).trans (.of_eq ?_)
  rw [List.map_map]
  rfl

end Collected

/-! ## Where an import leads -/

theorem folder_moduleFile {stem : String} (given : stem ∈ stems) :
    (moduleFile location imports stem).folder = location.toPath := by
  rw [SourceFile.folder, moduleFile,
    Path.parent?_toPath project.names (project.isStem stem given).isName_moduleName,
    Option.getD_some]

omit project in
theorem head?_target (stem : String) : ("./" ++ stem).toList.head? = some '.' := by
  have first : "./".toList = ['.', '/'] := by decide
  rw [String.toList_append, first]
  rfl

theorem join_target_eq (stem : String) :
    location.toPath.join ("./" ++ stem) = Location.toPath (location ++ [".", stem]) := by
  have dots : "./" = "." ++ "/" := by decide
  have relative : ("./" ++ stem).toList.head? ≠ some '/' := by
    rw [head?_target]
    decide
  rw [project.join_eq relative, dots, toPath_append_slash]

theorem isFile_eq_false {name : String} {rest : List String} (isName : Path.IsName name)
    (segments : ∀ s ∈ rest, Path.IsSegment s) (missing : entries.lookup name = none) :
    tree.isFile (Location.toPath (location ++ "." :: name :: rest)) = false := by
  have idle : ∀ s ∈ ["."], s = "." := List.forall_mem_singleton.2 rfl
  have absent := FileTree.isFile_eq_false_of_missing project.wellFormed project.folder idle isName
    segments missing
  rwa [List.singleton_append] at absent

include inReach in
theorem isFile_moduleName {stem : String} (given : stem ∈ stems) :
    tree.isFile (Location.toPath (location ++ [".", moduleName stem])) = true := by
  have idle : ∀ s ∈ ["."], s = "." := List.forall_mem_singleton.2 rfl
  have fits := of_decide_eq_true (inReach.fits stem given)
  rw [← List.singleton_append] at fits ⊢
  exact FileTree.isFile_of_file project.wellFormed project.folder idle
    (project.lookup_moduleName given) rfl fits

theorem probes_eq {stem : String} (isStem : IsStem stem) :
    Resolver.probes .typeScript (location.toPath.join ("./" ++ stem)) =
      [".ts", ".tsx", ".js", ".jsx"].flatMap (fun ending =>
        [Location.toPath (location ++ [".", stem ++ ending]),
          Location.toPath (location ++ [".", stem, "index" ++ ending])]) ++
        [Location.toPath (location ++ [".", stem])] := by
  have segments : ∀ s ∈ location ++ ["."] ++ [stem], Path.IsSegment s := by
    refine List.forall_mem_append.2 ⟨List.forall_mem_append.2 ⟨?_, ?_⟩, ?_⟩
    · exact project.segments
    · exact List.forall_mem_singleton.2 Path.isSegment_here
    · exact List.forall_mem_singleton.2 isStem.isName.toIsSegment
  have relative : ∀ ending, ("index" ++ ending).toList.head? ≠ some '/' := by
    intro ending
    have first : "index".toList = 'i' :: "ndex".toList := by decide
    rw [String.toList_append, first, List.cons_append, List.head?_cons]
    exact fun same => absurd (Option.some.inj same) (by decide)
  have apart : ∀ name, location ++ [".", name] = location ++ ["."] ++ [name] := by simp
  have further : ∀ name, location ++ [".", stem, name] = location ++ ["."] ++ [stem] ++ [name] := by
    simp
  rw [project.join_target_eq, Resolver.probes]
  simp only [apart, further, withSuffix_toPath, Path.join_toPath segments (relative _)]
  rfl

/-- Of the names that are tried for a stem, only that of its module can be in the folder. -/
theorem lookup_probe_eq_none {stem ending : String} (foreign : stem ∉ stems)
    (listed : ending ∈ [".ts", ".tsx", ".js", ".jsx"]) :
    entries.lookup (stem ++ ending) = none := by
  apply project.lookup_eq_none
  intro s given
  have others : ∀ e ∈ [".ts", ".tsx", ".js", ".jsx"], e = ".ts" ∨
      3 ≤ e.toList.length ∧ ¬ ['.', 't', 's'] <:+ e.toList := by decide
  cases others ending listed with
  | inl same =>
      subst same
      exact fun same => foreign (moduleName_injective same ▸ given)
  | inr apart =>
      refine moduleName_ne ?_ apart.1 apart.2
      rw [String.toList_append]
      exact List.suffix_append _ _

theorem lookup_stem_eq_none {stem : String} (isStem : IsStem stem) :
    entries.lookup stem = none := by
  apply project.lookup_eq_none
  rintro s - rfl
  exact isStem.not_mem (c := '.') (by decide) (by simp [moduleName])

include inReach in
/-- An import of a module of the folder leads to its file, and any other leads nowhere. -/
theorem firstFile?_eq {stem : String} (isStem : IsStem stem) :
    Resolver.firstFile? tree (Resolver.probes .typeScript (location.toPath.join ("./" ++ stem))) =
      if stem ∈ stems then some (Location.toPath (location ++ [".", moduleName stem])) else none := by
  rw [project.probes_eq isStem, Resolver.firstFile?]
  split
  next given =>
    -- The ending of modules is the first one that is tried.
    rw [List.flatMap_cons, List.cons_append, List.cons_append]
    exact List.find?_cons_of_pos (project.isFile_moduleName inReach given)
  next foreign =>
    rw [List.find?_eq_none]
    intro path member
    rw [Bool.not_eq_true]
    -- Each place that is looked at is the stem with an ending, or lies below the stem as a folder.
    have bare := project.lookup_stem_eq_none isStem
    cases List.mem_append.1 member with
    | inl probed =>
        obtain ⟨ending, listed, probed⟩ := List.mem_flatMap.1 probed
        have endings : ∀ e ∈ [".ts", ".tsx", ".js", ".jsx"], '/' ∉ e.toList := by decide
        have slashless := endings ending listed
        have index : Path.IsSegment "index" := ⟨by decide, by decide⟩
        cases List.mem_cons.1 probed with
        | inl withEnding =>
            rw [withEnding]
            exact project.isFile_eq_false (isStem.isName_append slashless) (List.forall_mem_nil _)
              (project.lookup_probe_eq_none foreign listed)
        | inr inside =>
            rw [List.mem_singleton.1 inside]
            exact project.isFile_eq_false isStem.isName
              (List.forall_mem_singleton.2 (index.append slashless)) bare
    | inr last =>
        rw [List.mem_singleton.1 last]
        exact project.isFile_eq_false isStem.isName (List.forall_mem_nil _) bare

theorem normalize_eq {name : String} (isName : Path.IsName name) :
    (Location.toPath (location ++ [".", name])).normalize = .rooted (location ++ [name]) := by
  have slashless : ∀ s ∈ location ++ [".", name], '/' ∉ s.toList := by
    refine List.forall_mem_append.2 ⟨fun s given => (project.names s given).slashless, ?_⟩
    exact List.forall_mem_cons.2 ⟨Path.isSegment_here.slashless,
      List.forall_mem_singleton.2 isName.slashless⟩
  have here : Path.componentOf? ".".toList = none := by decide
  apply Path.normalize_eq_rooted
  rw [Path.components_toPath slashless, List.filterMap_append,
    Path.filterMap_componentOf? project.names]
  simp only [List.filterMap_cons, here, isName.componentOf?_eq, List.filterMap_nil,
    List.map_append, List.map_cons, List.map_nil]

section Resolve

variable {ids : List String}

theorem idFor?_eq {stem : String} (given : stem ∈ stems) (known : moduleName stem ∈ ids) :
    (Resolver.ofProject location.toPath [] ids).idFor?
      (Location.toPath (location ++ [".", moduleName stem])) = some (moduleName stem) := by
  have kept : (some (moduleName stem)).filter (ids.contains ·) = some (moduleName stem) := by
    rw [Option.filter_some, if_pos (List.contains_iff_mem.2 known)]
  rw [Resolver.idFor?, Resolver.ofProject]
  dsimp only
  rw [project.normalize_eq (project.isStem stem given).isName_moduleName,
    Path.normalize_toPath project.names, Path.relativeId?_rooted _ (List.cons_ne_nil _ _),
    String.intercalate_singleton, kept]

include inReach

theorem resolve?_eq {stem target : String} (given : stem ∈ stems) (isStem : IsStem target)
    (known : ∀ s ∈ stems, moduleName s ∈ ids) :
    (Resolver.ofProject location.toPath [] ids).resolve? tree (moduleFile location imports stem)
      ("./" ++ target) = if target ∈ stems then some (moduleName target) else none := by
  have path : (Resolver.ofProject location.toPath [] ids).path? tree
      (moduleFile location imports stem) ("./" ++ target) =
        if target ∈ stems then some (Location.toPath (location ++ [".", moduleName target]))
        else none := by
    rw [← project.firstFile?_eq inReach isStem, ← project.folder_moduleFile given]
    exact if_pos (.inl (head?_target target))
  rw [Resolver.resolve?, path]
  split
  next inside =>
    rw [Option.bind_some]
    exact project.idFor?_eq inside (known target inside)
  next => rfl

theorem linksOfFile_eq {stem : String} (given : stem ∈ stems)
    (known : ∀ s ∈ stems, moduleName s ∈ ids) :
    linksOfFile (Resolver.ofProject location.toPath [] ids) tree (moduleFile location imports stem) =
      ((imports stem).filter fun target => target ∈ stems ∧ target ≠ stem).map fun target =>
        ⟨moduleName stem, moduleName target, .import⟩ := by
  have sameName : ∀ s t, moduleName s = moduleName t ↔ s = t :=
    fun s t => ⟨moduleName_injective, congrArg moduleName⟩
  -- What becomes of one import; the line on which it stands plays no part in it.
  let link? := fun target => if target ∈ stems ∧ target ≠ stem then
    some (⟨moduleName stem, moduleName target, .import⟩ : Link) else none
  have each : ∀ spot ∈ (imports stem).zipIdx 1, ((do
      let id ← (Resolver.ofProject location.toPath [] ids).resolve? tree
        (moduleFile location imports stem) ("./" ++ spot.1)
      if id = moduleName stem then none
      else some ⟨moduleName stem, id, Kind.import⟩) : Option Link) = link? spot.1 := by
    intro spot member
    have isImport : spot.1 ∈ imports stem := by
      rw [← List.zipIdx_map_fst 1 (imports stem)]
      exact List.mem_map_of_mem member
    rw [project.resolve?_eq inReach given (project.imported stem given _ isImport) known]
    by_cases inside : spot.1 ∈ stems
    · by_cases own : spot.1 = stem
      · simp [link?, own]
      · simp [link?, inside, own, sameName]
    · simp [link?, inside]
  have references := references_moduleText (project.imported stem given)
  calc linksOfFile (Resolver.ofProject location.toPath [] ids) tree (moduleFile location imports stem)
      = ((imports stem).zipIdx 1).filterMap fun spot => link? spot.1 := by
        rw [linksOfFile_eq_filterMap, moduleFile]
        dsimp only
        rw [references, List.filterMap_map]
        exact List.filterMap_congr each
    _ = (imports stem).filterMap link? := by
        conv_rhs => rw [← List.zipIdx_map_fst 1 (imports stem), List.filterMap_map]
        rfl
    _ = _ := by
        rw [← List.filterMap_eq_map, List.filterMap_filter]
        simp [link?]

end Resolve

/-! ## The graph -/

section Scan

include inReach

include collected

theorem linksFor_perm :
    (Graph.linksFor tree location.toPath []
      files).Perm
      (stems.flatMap fun stem =>
        ((imports stem).filter fun target => target ∈ stems ∧ target ≠ stem).map fun target =>
          ⟨moduleName stem, moduleName target, .import⟩) := by
  have known : ∀ s ∈ stems, moduleName s ∈
      files.map (·.relativePath) :=
    fun s given => (project.relativePath_perm inReach collected).mem_iff.2 (List.mem_map_of_mem given)
  rw [Graph.linksFor, linksOf]
  refine ((project.files_perm inReach collected).flatMap_right _).trans (.of_eq ?_)
  rw [List.flatMap_map]
  exact List.flatMap_congr fun s given => project.linksOfFile_eq inReach given known

theorem mem_linksFor_iff {link : Link} :
    link ∈ Graph.linksFor tree location.toPath []
      files ↔
      ∃ a b, (a ∈ stems ∧ b ∈ stems ∧ a ≠ b ∧ b ∈ imports a) ∧
        link = ⟨moduleName a, moduleName b, .import⟩ := by
  rw [(project.linksFor_perm inReach collected).mem_iff, List.mem_flatMap]
  constructor
  · rintro ⟨a, given, member⟩
    obtain ⟨b, kept, rfl⟩ := List.mem_map.1 member
    obtain ⟨isImport, fits⟩ := List.mem_filter.1 kept
    obtain ⟨inside, apart⟩ := of_decide_eq_true fits
    exact ⟨a, b, ⟨given, inside, Ne.symm apart, isImport⟩, rfl⟩
  · rintro ⟨a, b, ⟨given, inside, apart, isImport⟩, rfl⟩
    exact ⟨a, given, List.mem_map_of_mem (List.mem_filter.2
      ⟨isImport, decide_eq_true ⟨inside, Ne.symm apart⟩⟩)⟩

theorem mem_ends_assemble_iff {pair : String × String} :
    pair ∈ (Graph.assemble tree location.toPath []
      files).edges.map (·.ends) ↔
      ∃ a ∈ stems, ∃ b ∈ stems, (a ≠ b ∧ b ∈ imports a) ∧ pair = (moduleName a, moduleName b) := by
  rw [Graph.mem_ends_assemble_iff]
  constructor
  · intro member
    obtain ⟨link, found, rfl⟩ := List.mem_map.1 member
    obtain ⟨a, b, ⟨given, inside, joined⟩, rfl⟩ := (project.mem_linksFor_iff inReach collected).1 found
    exact ⟨a, given, b, inside, joined, rfl⟩
  · rintro ⟨a, given, b, inside, joined, rfl⟩
    exact List.mem_map.2
      ⟨_, (project.mem_linksFor_iff inReach collected).2 ⟨a, b, ⟨given, inside, joined⟩, rfl⟩, rfl⟩

end Scan

end ModuleFolder

end FileGraph
