import FileGraph.Resolver
import FileGraph.Proofs.SourceFile
import Mathlib.Data.Option.Basic

/-! # A reference leads to the file it denotes

Whether a file exists is found out by walking through folders, and which file of the project it is
by working out the path as a text.  In a tree without links the two agree on absolute paths, and no
way of searching ever tries a path that is not absolute.

* `Resolver.IsFirst`: the first of several items with a property.
* `Resolver.Found`: an absolute path that leads to a file.
* `Resolver.found_of_path?`: every way of searching answers such a path.
* `Resolver.idFor?_rooted`: the id of a path in normal form.
* `Resolver.resolve?_of_lookup`: the id of a source file is answered for each path that leads to it.
-/

namespace FileGraph.Resolver

open FileGraph.FileTree (isFile_iff_lookup)
open FileGraph.Path (isAbsolute_join isAbsolute_withSuffix isAbsolute_parent?)

/-- An item is the first of several that has a property. -/
def IsFirst {α : Type} (holds : α → Prop) (items : List α) (item : α) : Prop :=
  ∃ before after, items = before ++ item :: after ∧ holds item ∧ ∀ earlier ∈ before, ¬ holds earlier

theorem find?_eq_some_iff_isFirst {α : Type} {holds : α → Prop} {test : α → Bool}
    (decides : ∀ item, test item = true ↔ holds item) {items : List α} {item : α} :
    items.find? test = some item ↔ IsFirst holds items item := by
  rw [List.find?_eq_some_iff_append, IsFirst]
  simp only [Bool.not_eq_true', ← Bool.not_eq_true, decides]
  constructor
  · rintro ⟨own, before, after, shape, others⟩
    exact ⟨before, after, shape, own, others⟩
  · rintro ⟨before, after, shape, own, others⟩
    exact ⟨own, before, after, shape, others⟩

theorem IsFirst.mem {α : Type} {holds : α → Prop} {items : List α} {item : α}
    (first : IsFirst holds items item) : item ∈ items := by
  obtain ⟨before, after, rfl, -⟩ := first
  exact List.mem_append_right _ List.mem_cons_self

theorem IsFirst.of_map {α β : Type} {holds : β → Prop} {f : α → β} {items : List α} {image : β}
    (first : IsFirst holds (items.map f) image) :
    ∃ item, f item = image ∧ IsFirst (fun item => holds (f item)) items item := by
  obtain ⟨before, after, shape, own, others⟩ := first
  obtain ⟨front, back, rfl, rfl, shape'⟩ := List.map_eq_append_iff.1 shape
  obtain ⟨item, later, rfl, rfl, rfl⟩ := List.map_eq_cons_iff.1 shape'
  exact ⟨item, rfl, front, later, rfl, own, fun earlier member =>
    others _ (List.mem_map_of_mem member)⟩

theorem IsFirst.of_pairwise {α : Type} {holds : α → Prop} {items : List α} {item : α}
    {ordered : α → α → Prop} (first : IsFirst holds items item) (pairwise : items.Pairwise ordered)
    (reflexive : ordered item item) : ∀ other ∈ items, holds other → ordered item other := by
  obtain ⟨before, after, rfl, -, others⟩ := first
  intro other member own
  obtain earlier | rfl | later := (List.mem_append.1 member).imp_right List.mem_cons.1
  · exact absurd own (others other earlier)
  · exact reflexive
  · exact (List.pairwise_cons.1 (List.pairwise_append.1 pairwise).2.1).1 other later

theorem firstFile?_eq_some_iff {tree : FileTree} {paths : List Path} {path : Path} :
    firstFile? tree paths = some path ↔ IsFirst (tree.isFile · = true) paths path :=
  find?_eq_some_iff_isFirst fun _ => Iff.rfl

/-- An absolute path that leads to a file. -/
structure Found (tree : FileTree) (path : Path) : Prop where
  absolute : path.isAbsolute = true
  isFile : tree.isFile path = true

variable {r : Resolver} {tree : FileTree} {file : SourceFile} {paths : List Path}
  {base folder path : Path} {names : List String} {target : String}

/-! ## Paths that are tried -/

theorem found_of_firstFile? (absolute : ∀ p ∈ paths, p.isAbsolute = true)
    (first : firstFile? tree paths = some path) : Found tree path :=
  ⟨absolute path (List.mem_of_find?_eq_some first), List.find?_some first⟩

theorem forall_mem_probes {language : Language} {tried : Path → Prop} (plain : tried base)
    (suffix : ∀ ending, tried (base.withSuffix ending))
    (index : ∀ ending, tried (base.join ("index" ++ ending))) :
    ∀ p ∈ probes language base, tried p := by
  refine List.forall_mem_append.2 ⟨fun p member => ?_, List.forall_mem_singleton.2 plain⟩
  obtain ⟨ending, _, either⟩ := List.mem_flatMap.1 member
  obtain rfl | rfl : p = base.withSuffix ending ∨ p = base.join ("index" ++ ending) := by
    simpa using either
  · exact suffix ending
  · exact index ending

theorem isAbsolute_of_mem_probes {language : Language} (absolute : base.isAbsolute = true) :
    ∀ p ∈ probes language base, p.isAbsolute = true :=
  forall_mem_probes absolute (isAbsolute_withSuffix absolute) fun _ => isAbsolute_join absolute _

theorem isAbsolute_of_mem_includeProbes (absolute : base.isAbsolute = true) :
    ∀ p ∈ includeProbes base, p.isAbsolute = true := by
  refine List.forall_mem_append.2 ⟨List.forall_mem_map.2 fun ending _ => ?_,
    List.forall_mem_singleton.2 absolute⟩
  exact isAbsolute_withSuffix absolute ending

theorem isAbsolute_of_mem_foldersUp {root : Path.Lexical} {limit : Nat}
    (absolute : folder.isAbsolute = true) :
    ∀ p ∈ foldersUp root limit folder, p.isAbsolute = true := by
  induction limit generalizing folder with
  | zero => exact fun p tried => absurd tried List.not_mem_nil
  | succ limit ih =>
      refine List.forall_mem_cons.2 ⟨absolute, fun p tried => ?_⟩
      split at tried
      next => cases tried
      next =>
        split at tried
        next => cases tried
        next above parent => exact ih (isAbsolute_parent? absolute parent) p tried

theorem isAbsolute_of_up? {count : Nat} (absolute : folder.isAbsolute = true)
    (up : up? count folder = some path) : path.isAbsolute = true := by
  induction count generalizing folder with
  | zero => exact Option.some.inj up ▸ absolute
  | succ count ih =>
      obtain ⟨above, parent, up⟩ := Option.bind_eq_some_iff.1 up
      exact ih (isAbsolute_parent? absolute parent) up

/-! ## Ways of searching -/

theorem path?_script (script : file.language = .typeScript ∨ file.language = .javaScript) :
    r.path? tree file target = r.scriptPath? tree file target := by
  unfold path?
  obtain typeScript | javaScript := script
  · rw [typeScript]
  · rw [javaScript]

theorem found_of_pythonModule? (absolute : folder.isAbsolute = true)
    (found : pythonModule? tree folder names = some path) : Found tree path := by
  induction names generalizing folder with
  | nil => cases found
  | cons name later ih =>
      have package := isAbsolute_join absolute name
      rw [pythonModule?] at found
      dsimp only at found
      split at found
      next isFile =>
        obtain rfl := Option.some.inj found
        exact ⟨isAbsolute_join absolute _, isFile⟩
      next =>
        split at found
        next => cases found
        next isFile =>
          split at found
          next =>
            obtain rfl := Option.some.inj found
            exact ⟨isAbsolute_join package _, by simpa using isFile⟩
          next => exact ih package found

theorem found_of_rustModule? (absolute : folder.isAbsolute = true)
    (found : rustModule? tree folder names = some path) : Found tree path := by
  induction names generalizing folder with
  | nil => cases found
  | cons segment later ih =>
      have inner := isAbsolute_join absolute segment
      rw [rustModule?] at found
      split at found
      next isFile =>
        obtain rfl := Option.some.inj found
        exact ⟨isAbsolute_join inner _, isFile⟩
      next =>
        split at found
        next => exact ih inner found
        next =>
          exact found_of_firstFile? (List.forall_mem_singleton.2 (isAbsolute_join absolute _)) found

theorem isAbsolute_of_moduleFolder? (absolute : base.isAbsolute = true)
    (led : moduleFolder? base = some path) : path.isAbsolute = true := by
  obtain ⟨folder, parent, led⟩ := Option.bind_eq_some_iff.1 led
  obtain ⟨stem, _, led⟩ := Option.bind_eq_some_iff.1 led
  have inside := isAbsolute_parent? absolute parent
  obtain rfl := Option.some.inj led
  split
  next => exact inside
  next => exact isAbsolute_join inside stem

theorem isAbsolute_of_rustStart? {segments later : List String} (absolute : base.isAbsolute = true)
    (inside : folder.isAbsolute = true)
    (start : r.rustStart? tree base folder segments = some (path, later)) :
    path.isAbsolute = true := by
  unfold rustStart? at start
  split at start
  next =>
    obtain ⟨_, led, same⟩ := Option.map_eq_some_iff.1 start
    obtain ⟨rfl, rfl⟩ := Prod.mk.inj same
    exact isAbsolute_of_mem_foldersUp inside _ (List.mem_of_find?_eq_some led)
  next =>
    obtain ⟨_, led, same⟩ := Option.map_eq_some_iff.1 start
    obtain ⟨rfl, rfl⟩ := Prod.mk.inj same
    exact isAbsolute_of_moduleFolder? absolute led
  next =>
    obtain ⟨_, led, start⟩ := Option.bind_eq_some_iff.1 start
    obtain ⟨_, up, start⟩ := Option.bind_eq_some_iff.1 start
    obtain ⟨rfl, rfl⟩ := Prod.mk.inj (Option.some.inj start)
    exact isAbsolute_of_up? (isAbsolute_of_moduleFolder? absolute led) up
  next =>
    obtain ⟨rfl, rfl⟩ := Prod.mk.inj (Option.some.inj start)
    exact inside

section Search

variable (root : r.root.toPath.isAbsolute = true) (inside : file.folder.isAbsolute = true)

include inside

theorem found_of_includePath? (led : includePath? tree file target = some path) :
    Found tree path :=
  found_of_firstFile? (isAbsolute_of_mem_includeProbes (isAbsolute_join inside target)) led

theorem found_of_packagePath? {ending : String}
    (led : r.packagePath? tree file ending target = some path) : Found tree path := by
  unfold packagePath? at led
  split at led
  next => cases led
  next =>
    refine found_of_firstFile? (List.forall_mem_map.2 fun folder tried => ?_) led
    exact isAbsolute_join (isAbsolute_of_mem_foldersUp inside folder tried) _

include root

theorem found_of_scriptPath? (led : r.scriptPath? tree file target = some path) :
    Found tree path := by
  unfold scriptPath? at led
  split at led
  next rewritten _ =>
    exact found_of_firstFile? (isAbsolute_of_mem_probes (isAbsolute_join root rewritten)) led
  next =>
    split at led
    next => exact found_of_firstFile? (isAbsolute_of_mem_probes (isAbsolute_join inside target)) led
    next => cases led

theorem found_of_goPath? (led : r.goPath? tree file target = some path) : Found tree path := by
  unfold goPath? at led
  cases (Option.orElse_eq_some _ _ _).1 led with
  | inl here =>
      exact found_of_firstFile? (isAbsolute_of_mem_probes (isAbsolute_join inside target)) here
  | inr above =>
      exact found_of_firstFile? (isAbsolute_of_mem_probes (isAbsolute_join root target)) above.2

theorem found_of_pythonPath? (led : r.pythonPath? tree file target = some path) :
    Found tree path := by
  unfold pythonPath? at led
  dsimp only at led
  split at led
  next =>
    cases (Option.orElse_eq_some _ _ _).1 led with
    | inl above => exact found_of_pythonModule? root above
    | inr here => exact found_of_pythonModule? inside here.2
  next =>
    obtain ⟨start, up, led⟩ := Option.bind_eq_some_iff.1 led
    exact found_of_pythonModule? (isAbsolute_of_up? inside up) led

end Search

theorem found_of_rustPath? (absolute : base.isAbsolute = true)
    (led : r.rustPath? tree base target = some path) : Found tree path := by
  obtain ⟨folder, parent, led⟩ := Option.bind_eq_some_iff.1 led
  obtain ⟨⟨start, later⟩, started, led⟩ := Option.bind_eq_some_iff.1 led
  have inside := isAbsolute_parent? absolute parent
  exact found_of_rustModule? (isAbsolute_of_rustStart? absolute inside started) led

/-- Whatever the language, searching answers an absolute path that leads to a file. -/
theorem found_of_path? (root : r.root.toPath.isAbsolute = true)
    (absolute : file.path.isAbsolute = true) (inside : file.folder.isAbsolute = true)
    (led : r.path? tree file target = some path) : Found tree path := by
  unfold path? at led
  split at led
  next => exact found_of_scriptPath? root inside led
  next => exact found_of_scriptPath? root inside led
  next => exact found_of_goPath? root inside led
  next => exact found_of_includePath? inside led
  next => exact found_of_includePath? inside led
  next => exact found_of_pythonPath? root inside led
  next => exact found_of_packagePath? inside led
  next => exact found_of_packagePath? inside led
  next => exact found_of_rustPath? absolute led
  all_goals cases led

/-! ## The id of a file -/

theorem idFor?_rooted {location : Location} (root : r.root = .rooted location) (nonempty : names ≠ [])
    (normal : path.normalize = .rooted (location ++ names))
    (known : "/".intercalate names ∈ r.ids) : r.idFor? path = some ("/".intercalate names) := by
  have kept : (some ("/".intercalate names)).filter (r.ids.contains ·) =
      some ("/".intercalate names) := by
    rw [Option.filter_some, if_pos (List.contains_iff_mem.2 known)]
  rw [idFor?, root, normal, Path.relativeId?_rooted location nonempty, kept]

/-- Searching answers a path to a file, and if that is a source file, its id is answered, whatever other
source files have the same name. -/
theorem resolve?_of_lookup {root : Path} {aliases : AliasTable} {files : List SourceFile}
    (tidy : tree.top.Tidy) (linkFree : FileTree.LinkFree tree.top)
    (absolute : root.isAbsolute = true) (collected : SourceFile.collect tree root = .ok files)
    (member : file ∈ files)
    (led : (ofProject root aliases (files.map (·.relativePath))).path? tree file target = some path) :
    ∃ location bytes mode, tree.lookup path = .ok (location, .file bytes mode) ∧
      mode.isRegular = true ∧ path.normalize = .rooted location ∧
      ∀ other ∈ files, tree.lookup other.path = .ok (location, .file bytes mode) →
        (ofProject root aliases (files.map (·.relativePath))).resolve? tree file target =
          some other.relativePath := by
  obtain ⟨base, entries, found, named⟩ := SourceFile.of_mem_collect tidy collected
  have normal : root.normalize = .rooted base := linkFree.normalize_eq absolute found
  have filled := Path.text_ne_of_isAbsolute absolute
  obtain ⟨names, nonempty, isName, written, -⟩ := named file member
  have start : file.path.isAbsolute = true := written ▸ Path.isAbsolute_foldl_join absolute names
  have inside := (SourceFile.folder_of_path absolute nonempty isName written).1
  have rooted : (ofProject root aliases (files.map (·.relativePath))).root.toPath.isAbsolute = true := by
    rw [ofProject, normal]
    exact Path.isAbsolute_toPath base
  have ⟨absolute', isFile⟩ := found_of_path? rooted start inside led
  obtain ⟨location, bytes, mode, reached, regular⟩ := isFile_iff_lookup.1 isFile
  have place : path.normalize = .rooted location := linkFree.normalize_eq absolute' reached
  refine ⟨location, bytes, mode, reached, regular, place, fun other given same => ?_⟩
  -- The place of the other file, and so of this path, is that of its id below the root.
  obtain ⟨names', nonempty', isName', written', id, -⟩ := named other given
  have place' : location = base ++ names' := by
    have walked := linkFree.normalize_eq (written' ▸ Path.isAbsolute_foldl_join absolute names') same
    have below := Path.normalize_foldl_join isName' filled normal
    rw [← written', walked] at below
    exact Path.Lexical.rooted.inj below
  rw [resolve?, led, id]
  refine idFor?_rooted normal nonempty' (place.trans (congrArg _ place')) ?_
  rw [← id]
  exact List.mem_map_of_mem given

/-- A file that is referred to from a folder with a file of the same name. -/
theorem resolve?_of_lookup_namesake :
    let inner := [("b.ts", Entry.file .empty), ("main.ts", .file .empty)]
    let entries := [("a", Entry.folder inner), ("b.ts", .file .empty)]
    let tree := FileTree.single entries
    let files : List SourceFile := [⟨⟨"/p/a/b.ts"⟩, "a/b.ts", "", .typeScript⟩,
      ⟨⟨"/p/a/main.ts"⟩, "a/main.ts", "", .typeScript⟩, ⟨⟨"/p/b.ts"⟩, "b.ts", "", .typeScript⟩]
    let file : SourceFile := ⟨⟨"/p/a/main.ts"⟩, "a/main.ts", "", .typeScript⟩
    let r := ofProject ⟨"/p"⟩ [] (files.map (·.relativePath))
    tree.top.Tidy ∧ FileTree.LinkFree tree.top ∧ (Path.mk "/p").isAbsolute = true ∧
      SourceFile.collect tree ⟨"/p"⟩ = .ok files ∧ file ∈ files ∧
      r.path? tree file "../b" = some ⟨"/p/a/../b.ts"⟩ ∧
      r.resolve? tree file "../b" = some "b.ts" := by
  intro inner entries tree files file r
  have tidy : tree.top.Tidy := by
    refine .folder (by decide) (by decide) (List.forall_mem_singleton.2 ?_)
    refine .folder (by decide) (by decide) (List.forall_mem_cons.2 ⟨?_, ?_⟩)
    · refine .folder (by decide) (by decide) (List.forall_mem_cons.2 ⟨.file, ?_⟩)
      exact List.forall_mem_singleton.2 .file
    · exact List.forall_mem_singleton.2 .file
  have linkFree : FileTree.LinkFree tree.top := by
    refine FileTree.linkFree_folder (List.forall_mem_singleton.2 ?_)
    refine FileTree.linkFree_folder (List.forall_mem_cons.2 ⟨?_, ?_⟩)
    · refine FileTree.linkFree_folder (List.forall_mem_cons.2 ⟨FileTree.linkFree_file _ _, ?_⟩)
      exact List.forall_mem_singleton.2 (FileTree.linkFree_file _ _)
    · exact List.forall_mem_singleton.2 (FileTree.linkFree_file _ _)
  have free : FileTree.IsFree tree.top ["p", "b.ts"] := fun found standing =>
    ⟨.empty, .plain, Option.some.inj standing.symm⟩
  have found := FileTree.lookup_single entries
  have reached : tree.lookup ⟨"/p/a/../b.ts"⟩ = .ok (["p", "b.ts"], .file .empty) := by
    have steps : FileTree.steps "/p/a/../b.ts" = ["p", "a", "..", "b.ts"] := by decide
    refine FileTree.lookup_eq_ok_iff.2 ⟨by decide, ?_, rfl⟩
    rw [steps]
    exact .enter (by decide) rfl
      (.enter (by decide) rfl (.up (.last (by decide) free)))
  have direct : tree.lookup ⟨"/p/b.ts"⟩ = .ok (["p", "b.ts"], .file .empty) := by
    have steps : FileTree.steps "/p/b.ts" = ["p", "b.ts"] := by decide
    refine FileTree.lookup_eq_ok_iff.2 ⟨by decide, ?_, rfl⟩
    rw [steps]
    exact .enter (by decide) rfl (.last (by decide) free)
  have collected : SourceFile.collect tree ⟨"/p"⟩ = .ok files := by
    have file : (Entry.file .empty).ordered = .file .empty := by rw [Entry.ordered]
    have sorted : (Entry.folder entries).ordered = .folder entries := by
      refine Entry.ordered_folder (by decide) (List.forall_mem_cons.2 ⟨?_, by simpa using file⟩)
      exact Entry.ordered_folder (by decide) (by simp [inner, file])
    exact SourceFile.collect_eq_ok found sorted (by decide)
  have led : r.path? tree file "../b" = some ⟨"/p/a/../b.ts"⟩ := by
    have isFile : tree.isFile ⟨"/p/a/../b.ts"⟩ = true := isFile_iff_lookup.2 ⟨_, _, _, reached, rfl⟩
    have folder : (Path.mk "/p/a/main.ts").parent? = some ⟨"/p/a"⟩ := by decide
    have probed : probes .typeScript (Path.join ⟨"/p/a"⟩ "../b") =
        ⟨"/p/a/../b.ts"⟩ :: (probes .typeScript (Path.join ⟨"/p/a"⟩ "../b")).tail := by decide
    simp only [r, file, path?, scriptPath?, ofProject, AliasTable.rewrite?, SourceFile.folder, folder,
      firstFile?, List.findSome?_nil, Option.getD_some]
    rw [if_pos (by decide), probed, List.find?_cons_of_pos isFile]
  obtain ⟨location, bytes, mode, led', -, -, ids⟩ :=
    resolve?_of_lookup tidy linkFree (by decide) collected (by decide) led
  obtain ⟨rfl, same⟩ := Prod.mk.inj (Except.ok.inj (led'.symm.trans reached))
  obtain ⟨rfl, rfl⟩ := Entry.file.inj same
  exact ⟨tidy, linkFree, by decide, collected, by decide, led,
    ids ⟨⟨"/p/b.ts"⟩, "b.ts", "", .typeScript⟩ (by decide) direct⟩

end FileGraph.Resolver
