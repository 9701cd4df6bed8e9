import FileGraph.Proofs.FileTree.Passes
import FileGraph.Proofs.Path.Below
import FileGraph.Proofs.Resolver
import FileGraph.Proofs.Resolver.Descent

/-! # Packages of Java and C#

A dotted name is a path of folders with a file at its end, and where that path begins is found out by
trying the folder of the file and the folders above it, one after another.

* `Package.roots`: the folders that are tried, the root of the project being the last of them.
* `foldersUp_eq`: going up from the folder of a file passes through these folders.
* `Package.classPath`, `packagePath?_eq`: what is tried in each of them.
* `path?_package`: the first file that is there is the answer; it is below the root, and no other file
  that is there has more folders in front of its package.
-/

namespace FileGraph.Resolver

open FileGraph.Path (Component IsName Lexical)

variable {tree : FileTree} {file : SourceFile} {root path : Path} {aliases : AliasTable}
  {ids folders package : List String} {name className ending target text : String} {l : Lexical}
  {count level : Nat}

/-! ## Folders below a normal form -/

theorem folderAt_eq_toPath (proper : l.IsProper) (isName : ∀ folder ∈ folders, IsName folder)
    (count : Nat) : folderAt l.toPath folders count =
      (((folders.take count).map .name).foldl Lexical.push l).toPath :=
  (proper.toPath_foldl_push fun folder member => isName folder (List.mem_of_mem_take member)).symm

theorem components_folderAt (proper : l.IsProper) (isName : ∀ folder ∈ folders, IsName folder)
    (count : Nat) : (folderAt l.toPath folders count).components =
      l.toPath.components ++ (folders.take count).map .name := by
  have taken : ∀ folder ∈ folders.take count, IsName folder := fun folder member =>
    isName folder (List.mem_of_mem_take member)
  rw [folderAt_eq_toPath proper isName, (proper.foldl_push_name taken).components_toPath,
    Lexical.components_foldl_push, proper.components_toPath]

theorem parent?_folderAt (proper : l.IsProper) (isName : ∀ folder ∈ folders, IsName folder)
    (within : count < folders.length) :
    (folderAt l.toPath folders (count + 1)).parent? = some (folderAt l.toPath folders count) := by
  have taken : ∀ folder ∈ folders.take count, IsName folder := fun folder member =>
    isName folder (List.mem_of_mem_take member)
  rw [folderAt_eq_toPath proper isName, folderAt_eq_toPath proper isName,
    List.take_succ_eq_append_getElem within, List.map_append, List.foldl_append]
  exact (proper.foldl_push_name taken).parent?_push_name (isName _ (List.getElem_mem within))

theorem ancestor?_folderAt (proper : l.IsProper) (isName : ∀ folder ∈ folders, IsName folder)
    (within : count ≤ folders.length) (above : level ≤ count) :
    ancestor? (folderAt l.toPath folders count) level =
      some (folderAt l.toPath folders (count - level)) := by
  induction level generalizing count with
  | zero => rfl
  | succ level ih =>
    cases count with
    | zero => exact absurd above (Nat.not_succ_le_zero level)
    | succ count =>
      rw [ancestor?_succ, parent?_folderAt proper isName within, Option.bind_some,
        ih (by omega) (by omega), Nat.add_sub_add_right]

namespace Package

/-- The folders from which a package is read: that of the file and the folders above it up to the
root, but no more than ten. -/
def roots (root : Path) (folders : List String) : List Path :=
  ((List.range (folders.length + 1)).reverse.map (folderAt root folders)).take 10

/-- Where a class is below the folder from which its package is read. -/
def classPath (package : List String) (className ending : String) : String :=
  "/".intercalate (package ++ [className ++ ending])

theorem pairwise_roots (root : Path) (isName : ∀ folder ∈ folders, IsName folder) :
    (roots root.normalize.toPath folders).Pairwise fun folder above =>
      above.components <+: folder.components := by
  refine List.Pairwise.sublist (List.take_sublist _ _) ?_
  rw [List.pairwise_map, List.pairwise_reverse]
  refine List.pairwise_lt_range.imp fun {fewer} {more} below => ?_
  rw [components_folderAt (Path.isProper_normalize root) isName,
    components_folderAt (Path.isProper_normalize root) isName, List.prefix_append_right_inj]
  exact (List.take_prefix_take_left below.le).map _

end Package

open Package

/-- Going up from the folder of a file passes through the folders from which packages are read. -/
theorem foldersUp_eq (root : Path) (isName : ∀ folder ∈ folders, IsName folder) :
    foldersUp root.normalize packageLevels (folderAt root.normalize.toPath folders folders.length) =
      roots root.normalize.toPath folders := by
  have proper := Path.isProper_normalize root
  have below := components_folderAt proper isName folders.length
  rw [List.take_length] at below
  have normal := Path.normalize_toPath_normalize root
  -- Level by level: either bound may be the one that is met first.
  refine List.ext_getElem? fun level => ?_
  have up := getElem?_foldersUp below packageLevels level
  rw [normal] at up
  rw [up, roots, List.getElem?_take]
  by_cases limit : level < 10
  · rw [if_pos limit]
    by_cases within : level ≤ folders.length
    · rw [if_pos ⟨limit, within⟩, ancestor?_folderAt proper isName le_rfl within, List.getElem?_map,
        List.getElem?_reverse (by rw [List.length_range]; omega), List.length_range,
        List.getElem?_range (by omega)]
      rfl
    · rw [if_neg fun both => within both.2, List.getElem?_eq_none (by simp; omega)]
  · rw [if_neg limit, if_neg fun both => limit both.1]

/-! ## Names of packages -/

theorem mem_of_mem_splitOn {sep c : Char} {text piece : List Char}
    (held : piece ∈ Text.splitOn sep text) (inside : c ∈ piece) : c ∈ text := by
  rw [← Text.joinWith_splitOn sep text, Text.joinWith_eq]
  generalize Text.splitOn sep text = pieces at held ⊢
  induction pieces with
  | nil => cases held
  | cons first later ih =>
    cases later with
    | nil =>
      rw [List.intercalate_singleton]
      exact List.mem_singleton.1 held ▸ inside
    | cons second later =>
      rw [List.intercalate_cons_cons]
      obtain rfl | behind := List.mem_cons.1 held
      · exact List.mem_append_left _ (List.mem_append_left _ inside)
      · exact List.mem_append_right _ (ih behind)

theorem isName_of_mem_pieces {text : List Char} (slashless : '/' ∉ text)
    (member : name ∈ pieces (Text.splitOn '.') text) : IsName name ∧ '.' ∉ name.toList := by
  obtain ⟨piece, held, rfl⟩ := List.mem_map.1 member
  obtain ⟨held, filled⟩ := List.mem_filter.1 held
  have dotless := Text.not_mem_of_mem_splitOn held
  have filled : piece ≠ [] := by simpa using filled
  have plain : '/' ∉ piece := fun inside =>
    slashless (mem_of_mem_splitOn held inside)
  have undotted : ∀ dots : String, '.' ∈ dots.toList → String.ofList piece ≠ dots := by
    rintro dots dot rfl
    exact dotless (by simpa using dot)
  refine ⟨⟨⟨by simpa using filled, by simpa using plain⟩, ?_, ?_⟩, by simpa using dotless⟩
  · exact undotted "." (by decide)
  · exact undotted ".." (by decide)

theorem isName_of_mem_classPath (slashless : '/' ∉ target.toList)
    (named : pieces (Text.splitOn '.') target.toList = package ++ [className])
    (known : ending = ".java" ∨ ending = ".cs") :
    ∀ name ∈ package ++ [className ++ ending], IsName name := by
  have own : ∀ name ∈ package ++ [className], IsName name := fun name member =>
    (isName_of_mem_pieces slashless (named ▸ member)).1
  refine List.forall_mem_append.2 ⟨fun name member => own name (List.mem_append_left _ member),
    List.forall_mem_singleton.2 ?_⟩
  have isSegment := (own className (by simp)).toIsSegment
  have undotted : ∀ dots : String, dots.toList.getLast? = some '.' → className ++ ending ≠ dots := by
    rintro dots dot rfl
    rw [String.toList_append, List.getLast?_append] at dot
    obtain rfl | rfl := known
    · exact absurd (Option.some.inj dot) (by decide : 'a' ≠ '.')
    · exact absurd (Option.some.inj dot) (by decide : 's' ≠ '.')
  have slashless' : '/' ∉ ending.toList := by
    obtain rfl | rfl := known
    · decide
    · decide
  exact ⟨isSegment.append slashless', undotted "." (by decide), undotted ".." (by decide)⟩

/-! ## Where a class is found -/

theorem packagePath?_eq (slashless : '/' ∉ target.toList)
    (named : pieces (Text.splitOn '.') target.toList = package ++ [className])
    (known : ending = ".java" ∨ ending = ".cs") (r : Resolver) (file : SourceFile) :
    r.packagePath? tree file ending target = firstFile? tree
      ((foldersUp r.root packageLevels file.folder).map (·.join (classPath package className ending))) := by
  have isName := isName_of_mem_classPath slashless named known
  have written : (package ++ [className ++ ending]).foldl Path.join ⟨""⟩ =
      ⟨classPath package className ending⟩ := by
    rw [← Path.join_intercalate (by simp) fun name member => (isName name member).toIsSegment]
    simp [Path.join, classPath]
  rw [packagePath?, named, List.reverse_concat]
  dsimp only
  rw [List.reverse_reverse, written]

/-- In a file below the root, a dotted name leads to the first file that is there when its folders
and its class are looked for in the folder of the file and in the folders above it, up to the root and
up to ten of them; and to nothing if no such file is there. What is found is below the root, and all
other files of that kind are found from folders further up. -/
theorem path?_package
    (language : file.language = .java ∧ ending = ".java" ∨ file.language = .cSharp ∧ ending = ".cs")
    (isName : ∀ own ∈ folders ++ [name], IsName own)
    (placed : file.path = root.normalize.toPath.join ("/".intercalate (folders ++ [name])))
    (slashless : '/' ∉ target.toList)
    (named : pieces (Text.splitOn '.') target.toList = package ++ [className]) :
    (∀ path, (ofProject root aliases ids).path? tree file target = some path ↔
      IsFirst (tree.isFile · = true)
        ((roots root.normalize.toPath folders).map (·.join (classPath package className ending))) path) ∧
    ∀ path, (ofProject root aliases ids).path? tree file target = some path →
      (∃ names, names ≠ [] ∧ (∀ name ∈ names, IsName name) ∧
        path = root.normalize.toPath.join ("/".intercalate names)) ∧
      ∃ folder ∈ roots root.normalize.toPath folders,
        path = folder.join (classPath package className ending) ∧
        ∀ other ∈ roots root.normalize.toPath folders,
          tree.isFile (other.join (classPath package className ending)) = true →
            other.components <+: folder.components := by
  have known : ending = ".java" ∨ ending = ".cs" := language.imp And.right And.right
  have proper := Path.isProper_normalize root
  have outer : ∀ folder ∈ folders, IsName folder := fun folder member =>
    isName folder (List.mem_append_left _ member)
  have classNames := isName_of_mem_classPath slashless named known
  -- The path of the file is that of the root with one name after another, so its folder has all but
  -- the last of them.
  have inside : file.folder = folderAt root.normalize.toPath folders folders.length := by
    have whole : file.path =
        folderAt root.normalize.toPath (folders ++ [name]) (folders.length + 1) := by
      rw [placed, Path.join_intercalate (by simp) fun own member => (isName own member).toIsSegment,
        folderAt, List.take_of_length_le (by simp)]
    rw [SourceFile.folder, whole, parent?_folderAt proper isName (by simp), Option.getD_some,
      folderAt_append _ _ _ le_rfl]
  have led : ∀ path, (ofProject root aliases ids).path? tree file target = some path ↔
      IsFirst (tree.isFile · = true)
        ((roots root.normalize.toPath folders).map (·.join (classPath package className ending))) path := by
    intro path
    have searched : (ofProject root aliases ids).path? tree file target =
        (ofProject root aliases ids).packagePath? tree file ending target := by
      obtain ⟨java, rfl⟩ | ⟨cSharp, rfl⟩ := language
      · rw [path?, java]
      · rw [path?, cSharp]
    rw [searched, packagePath?_eq slashless named known, inside, ofProject, foldersUp_eq root outer,
      firstFile?_eq_some_iff]
  refine ⟨led, fun path found => ?_⟩
  obtain ⟨folder, rfl, first⟩ := ((led path).1 found).of_map
  have tried := first.mem
  refine ⟨?_, folder, tried, rfl, first.of_pairwise (pairwise_roots root outer) (List.prefix_refl _)⟩
  -- What is found has the names of some of the folders, and then those of the class.
  obtain ⟨count, -, rfl⟩ := List.mem_map.1 (List.mem_of_mem_take tried)
  have all : ∀ name ∈ folders.take count ++ (package ++ [className ++ ending]), IsName name :=
    List.forall_mem_append.2 ⟨fun name member => outer name (List.mem_of_mem_take member), classNames⟩
  refine ⟨folders.take count ++ (package ++ [className ++ ending]), by simp, all, ?_⟩
  rw [classPath, Path.join_intercalate (by simp) fun name member => (classNames name member).toIsSegment,
    Path.join_intercalate (by simp) fun name member => (all name member).toIsSegment, folderAt,
    ← List.foldl_append]

/-! ## A project with a package at two levels -/

namespace Package

/-- A package in a folder of sources, and one of the same name beside that folder. -/
def nestedTree : FileTree :=
  .single [
    ("a", .folder [("B.java", .file .empty)]),
    ("src", .folder [("a", .folder [("B.java", .file .empty), ("Main.java", .file .empty)])])]

def nestedFile : SourceFile :=
  ⟨⟨"/p/src/a/Main.java"⟩, "src/a/Main.java", "", .java⟩

def nestedResolver : Resolver :=
  ofProject ⟨"/q/../p"⟩ [] ["a/B.java", "src/a/B.java", "src/a/Main.java"]

theorem linkFree_nestedTree : FileTree.LinkFree nestedTree.top := by
  have file := FileTree.linkFree_file .empty .plain
  refine FileTree.linkFree_folder (List.forall_mem_singleton.2 ?_)
  refine FileTree.linkFree_folder (List.forall_mem_cons.2 ⟨?_, List.forall_mem_singleton.2 ?_⟩)
  · exact FileTree.linkFree_folder (List.forall_mem_singleton.2 file)
  · refine FileTree.linkFree_folder (List.forall_mem_singleton.2 ?_)
    exact FileTree.linkFree_folder (List.forall_mem_cons.2 ⟨file, List.forall_mem_singleton.2 file⟩)

end Package

/-- The folder of the file holds no such package, and of the two folders above it that do the nearer
one counts. -/
theorem path?_package_nested :
    nestedResolver.path? nestedTree nestedFile "a..B" = some ⟨"/p/src/a/B.java"⟩ := by
  have isName : ∀ own ∈ ["src", "a"] ++ ["Main.java"], IsName own := by decide
  have placed : nestedFile.path =
      (Path.mk "/q/../p").normalize.toPath.join ("/".intercalate (["src", "a"] ++ ["Main.java"])) := by
    decide
  have named : pieces (Text.splitOn '.') "a..B".toList = ["a"] ++ ["B"] := by decide
  have absent : nestedTree.isFile ⟨"/p/src/a/a/B.java"⟩ = false :=
    (linkFree_nestedTree.isFile_eq (by decide)).trans (by decide)
  refine ((path?_package (.inl ⟨rfl, rfl⟩) isName placed (by decide) named).1 _).2 ?_
  refine ⟨[⟨"/p/src/a/a/B.java"⟩], [⟨"/p/a/B.java"⟩], by decide, ?_, List.forall_mem_singleton.2 ?_⟩
  · exact (linkFree_nestedTree.isFile_eq (by decide)).trans (by decide)
  · exact Bool.eq_false_iff.1 absent

end FileGraph.Resolver
