import FileGraph.Proofs.FileTree.Passes
import FileGraph.Proofs.Resolver.Descent

/-! # Modules of Python

A dotted name is followed from a folder, one name after another: a name that is a module file ends
the walk, one that is a package is entered, and any other makes it fail.

* `Python.Walks`: the file that names lead to from a folder.
* `Python.walks_cons_iff`, `pythonModule?_eq_some_iff`: one name further, and the whole walk.
* `Python.Start`: the folder from which names behind some dots are followed.
* `pythonPath?_target`: where a target leads to.
-/

namespace FileGraph.Resolver

variable {r : Resolver} {tree : FileTree} {file : SourceFile} {start path : Path}
  {names later more : List String} {name : String} {dots k : Nat}

namespace Python

/-! ## Modules and packages -/

/-- The module file of the name at an index, in the folder that the names before it lead to. -/
def moduleFile (start : Path) (names : List String) (k : Nat) : Path :=
  (folderAt start names k).join (names.getD k "" ++ ".py")

/-- The file that makes a package of the folder that the names up to an index lead to. -/
def marker (start : Path) (names : List String) (k : Nat) : Path :=
  (folderAt start names (k + 1)).join "__init__.py"

/-- The first names are packages and no modules. -/
def Packages (tree : FileTree) (start : Path) (names : List String) (count : Nat) : Prop :=
  ∀ j < count, tree.isFile (moduleFile start names j) = false ∧
    tree.isFile (marker start names j) = true

/-- The name at an index is a module, and the names before it are packages and no modules. -/
structure ModuleAt (tree : FileTree) (start : Path) (names : List String) (k : Nat) : Prop where
  within : k < names.length
  packages : Packages tree start names k
  isFile : tree.isFile (moduleFile start names k) = true

/-- The file that names lead to from a folder. -/
inductive Walks (tree : FileTree) (start : Path) (names : List String) : Path → Prop where
  | module {k : Nat} : ModuleAt tree start names k →
      Walks tree start names (moduleFile start names k)
  | package : names ≠ [] → Packages tree start names names.length →
      Walks tree start names (marker start names (names.length - 1))

@[simp] theorem moduleFile_zero (start : Path) (name : String) (later : List String) :
    moduleFile start (name :: later) 0 = start.join (name ++ ".py") :=
  rfl

@[simp] theorem moduleFile_succ (start : Path) (name : String) (later : List String) (k : Nat) :
    moduleFile start (name :: later) (k + 1) = moduleFile (start.join name) later k :=
  rfl

@[simp] theorem marker_zero (start : Path) (name : String) (later : List String) :
    marker start (name :: later) 0 = (start.join name).join "__init__.py" :=
  rfl

@[simp] theorem marker_succ (start : Path) (name : String) (later : List String) (k : Nat) :
    marker start (name :: later) (k + 1) = marker (start.join name) later k :=
  rfl

theorem packages_cons_iff : Packages tree start (name :: later) (k + 1) ↔
    (tree.isFile (start.join (name ++ ".py")) = false ∧
      tree.isFile ((start.join name).join "__init__.py") = true) ∧
      Packages tree (start.join name) later k :=
  Nat.forall_lt_succ_left

theorem moduleAt_zero_iff :
    ModuleAt tree start (name :: later) 0 ↔ tree.isFile (start.join (name ++ ".py")) = true :=
  ⟨fun own => own.isFile, fun own => ⟨Nat.zero_lt_succ _, by simp [Packages], own⟩⟩

theorem moduleAt_succ_iff : ModuleAt tree start (name :: later) (k + 1) ↔
    (tree.isFile (start.join (name ++ ".py")) = false ∧
      tree.isFile ((start.join name).join "__init__.py") = true) ∧
      ModuleAt tree (start.join name) later k := by
  constructor
  · rintro ⟨within, packages, isFile⟩
    obtain ⟨first, packages⟩ := packages_cons_iff.1 packages
    exact ⟨first, Nat.lt_of_succ_lt_succ within, packages, isFile⟩
  · rintro ⟨first, within, packages, isFile⟩
    exact ⟨Nat.succ_lt_succ within, packages_cons_iff.2 ⟨first, packages⟩, isFile⟩

theorem not_walks_nil : ¬ Walks tree start [] path := by
  rintro (⟨own⟩ | ⟨nonempty, -⟩)
  · exact Nat.not_lt_zero _ own.within
  · exact nonempty rfl

theorem walks_cons_iff : Walks tree start (name :: later) path ↔
    tree.isFile (start.join (name ++ ".py")) = true ∧ start.join (name ++ ".py") = path ∨
      (tree.isFile (start.join (name ++ ".py")) = false ∧
        tree.isFile ((start.join name).join "__init__.py") = true) ∧
        (later = [] ∧ (start.join name).join "__init__.py" = path ∨
          Walks tree (start.join name) later path) := by
  constructor
  · rintro (own | ⟨-, packages⟩)
    · rename_i k
      cases k with
      | zero => exact .inl ⟨moduleAt_zero_iff.1 own, (moduleFile_zero start name later).symm⟩
      | succ k =>
        -- Behind a package the walk goes on, with one name less in front of the module.
        obtain ⟨first, own⟩ := moduleAt_succ_iff.1 own
        rw [moduleFile_succ]
        exact .inr ⟨first, .inr (.module own)⟩
    · obtain ⟨first, packages⟩ := packages_cons_iff.1 packages
      refine .inr ⟨first, ?_⟩
      cases later with
      | nil => exact .inl ⟨rfl, (marker_zero start name []).symm⟩
      | cons second later =>
        rw [List.length_cons, Nat.add_sub_cancel, List.length_cons, marker_succ]
        exact .inr (.package (List.cons_ne_nil _ _) packages)
  · rintro (⟨own, rfl⟩ | ⟨first, ⟨rfl, rfl⟩ | walks⟩)
    · rw [← moduleFile_zero start name later]
      exact .module (moduleAt_zero_iff.2 own)
    · rw [← marker_zero start name []]
      exact .package (List.cons_ne_nil _ _) (packages_cons_iff.2 ⟨first, by simp [Packages]⟩)
    · cases walks with
      | module own =>
        rw [← moduleFile_succ start name]
        exact .module (moduleAt_succ_iff.2 ⟨first, own⟩)
      | package nonempty packages =>
        obtain ⟨second, later, rfl⟩ := List.exists_cons_of_ne_nil nonempty
        rw [List.length_cons, Nat.add_sub_cancel, ← marker_succ start name]
        exact .package (List.cons_ne_nil _ _) (packages_cons_iff.2 ⟨first, packages⟩)

end Python

open Python

theorem pythonModule?_eq_some_iff :
    pythonModule? tree start names = some path ↔ Walks tree start names path := by
  induction names generalizing start with
  | nil => exact iff_of_false (by simp [pythonModule?]) not_walks_nil
  | cons name later ih =>
    rw [walks_cons_iff, ← ih, pythonModule?]
    dsimp only
    cases tree.isFile (start.join (name ++ ".py")) with
    | true => simp
    | false =>
      cases tree.isFile ((start.join name).join "__init__.py") with
      | false => simp
      | true =>
        cases later with
        | nil => simp [pythonModule?]
        | cons second later => simp

namespace Python

/-! ## More names behind the first ones -/

theorem moduleFile_append (within : k < names.length) :
    moduleFile start (names ++ more) k = moduleFile start names k := by
  rw [moduleFile, moduleFile, folderAt_append start names more within.le, List.getD,
    List.getElem?_append_left within, ← List.getD]

theorem marker_append (within : k < names.length) :
    marker start (names ++ more) k = marker start names k := by
  rw [marker, marker, folderAt_append start names more within]

theorem ModuleAt.append (own : ModuleAt tree start names k) (more : List String) :
    ModuleAt tree start (names ++ more) k := by
  refine ⟨?_, fun j below => ?_, ?_⟩
  · rw [List.length_append]
    exact Nat.lt_add_right _ own.within
  · have within := below.trans own.within
    rw [moduleFile_append within, marker_append within]
    exact own.packages j below
  · rw [moduleFile_append own.within]
    exact own.isFile

theorem exists_walks_of_append (nonempty : names ≠ [])
    (walks : Walks tree start (names ++ more) path) : ∃ path, Walks tree start names path := by
  induction names generalizing start with
  | nil => exact absurd rfl nonempty
  | cons name later ih =>
    obtain ⟨own, -⟩ | ⟨first, deeper⟩ := walks_cons_iff.1 walks
    · exact ⟨_, walks_cons_iff.2 (.inl ⟨own, rfl⟩)⟩
    · -- Where the names run out, the last of them is a package, and that is where they lead.
      by_cases last : later = []
      · exact ⟨_, walks_cons_iff.2 (.inr ⟨first, .inl ⟨last, rfl⟩⟩)⟩
      · obtain ⟨stops, -⟩ | deeper := deeper
        · exact absurd (List.append_eq_nil_iff.1 stops).1 last
        · obtain ⟨reached, walks⟩ := ih last deeper
          exact ⟨reached, walks_cons_iff.2 (.inr ⟨first, .inr walks⟩)⟩

/-! ## Where walks begin -/

/-- The folder from which the names behind some dots are followed. -/
inductive Start (r : Resolver) (tree : FileTree) (file : SourceFile) (names : List String) :
    (dots : Nat) → Path → Prop where
  /-- One dot is the folder of the file, each further one the folder above. -/
  | above {dots : Nat} {start : Path} :
      ancestor? file.folder dots = some start → Start r tree file names (dots + 1) start
  /-- Without dots the root comes first, -/
  | root {path : Path} :
      Walks tree r.root.toPath names path → Start r tree file names 0 r.root.toPath
  /-- and the folder of the file where the names lead nowhere from the root. -/
  | folder : (∀ path, ¬ Walks tree r.root.toPath names path) → Start r tree file names 0 file.folder

theorem Start.append (begins : Start r tree file names dots start)
    (own : ModuleAt tree start names k) (more : List String) :
    Start r tree file (names ++ more) dots start := by
  cases begins with
  | above up => exact .above up
  | root walks => exact .root (.module (own.append more))
  | folder nowhere =>
    -- Were there a walk from the root with more names, there would be one with these.
    refine .folder fun path walks => ?_
    have nonempty := List.ne_nil_of_length_pos (Nat.zero_lt_of_lt own.within)
    obtain ⟨path, walks⟩ := exists_walks_of_append nonempty walks
    exact nowhere path walks

/-! ## Targets -/

/-- A target: dots, and names with a dot between each two. -/
def target (dots : Nat) (names : List String) : String :=
  String.ofList (List.replicate dots '.') ++ ".".intercalate names

theorem toList_target (dots : Nat) (names : List String) : (target dots names).toList =
    List.replicate dots '.' ++ ['.'].intercalate (names.map (·.toList)) := by
  rw [target, String.toList_append, String.toList_ofList, String.toList_intercalate]
  rfl

theorem intercalate_eq_nil_or_cons (segments : ∀ name ∈ names, IsSegment '.' name) :
    ['.'].intercalate (names.map (·.toList)) = [] ∨
      ∃ first rest, first ≠ '.' ∧ ['.'].intercalate (names.map (·.toList)) = first :: rest := by
  cases names with
  | nil => exact .inl rfl
  | cons name later =>
    have own := segments name List.mem_cons_self
    obtain ⟨first, rest, shape⟩ :=
      List.exists_cons_of_ne_nil (String.toList_eq_nil_iff.not.2 own.filled)
    have apart : first ≠ '.' := fun dot => own.plain (by simp [shape, dot])
    refine .inr ⟨first, ?_⟩
    cases later with
    | nil => exact ⟨rest, apart, by simp [shape]⟩
    | cons second later => exact ⟨_, apart, by simp [List.intercalate_cons_cons, shape]; rfl⟩

theorem takeWhile_target (segments : ∀ name ∈ names, IsSegment '.' name) :
    (target dots names).toList.takeWhile (· == '.') = List.replicate dots '.' := by
  rw [toList_target, List.takeWhile_append_of_pos (by simp)]
  obtain none | ⟨first, rest, apart, shape⟩ := intercalate_eq_nil_or_cons segments
  · rw [none, List.takeWhile_nil, List.append_nil]
  · rw [shape, List.takeWhile_cons_of_neg (by simpa using apart), List.append_nil]

theorem dropWhile_target (segments : ∀ name ∈ names, IsSegment '.' name) :
    (target dots names).toList.dropWhile (· == '.') = ['.'].intercalate (names.map (·.toList)) := by
  rw [toList_target, List.dropWhile_append_of_pos (by simp)]
  obtain none | ⟨first, rest, apart, shape⟩ := intercalate_eq_nil_or_cons segments
  · rw [none, List.dropWhile_nil]
  · rw [shape, List.dropWhile_cons_of_neg (by simpa using apart)]

end Python

theorem pythonPath?_target (segments : ∀ name ∈ names, IsSegment '.' name) :
    r.pythonPath? tree file (target dots names) =
      if dots = 0 then
        pythonModule? tree r.root.toPath names <|> pythonModule? tree file.folder names
      else (ancestor? file.folder (dots - 1)).bind (pythonModule? tree · names) := by
  rw [pythonPath?, takeWhile_target segments, dropWhile_target segments, pieces_splitOn segments,
    List.length_replicate, up?_eq_ancestor?]
  simp only [List.replicate_eq_nil_iff]

theorem pythonPath?_target_eq_some_iff (segments : ∀ name ∈ names, IsSegment '.' name) :
    r.pythonPath? tree file (target dots names) = some path ↔
      ∃ start, Start r tree file names dots start ∧ Walks tree start names path := by
  rw [pythonPath?_target segments]
  cases dots with
  | zero =>
    -- Without dots the root comes first, and the folder of the file only if the root leads nowhere.
    have nowhere : pythonModule? tree r.root.toPath names = none ↔
        ∀ path, ¬ Walks tree r.root.toPath names path := by
      simp only [Option.eq_none_iff_forall_ne_some, ne_eq, pythonModule?_eq_some_iff]
    simp only [↓reduceIte, Option.orElse_eq_orElse, Option.orElse_eq_or, Option.or_eq_some_iff,
      nowhere, pythonModule?_eq_some_iff]
    constructor
    · rintro (walks | ⟨nowhere, walks⟩)
      · exact ⟨_, .root walks, walks⟩
      · exact ⟨_, .folder nowhere, walks⟩
    · rintro ⟨start, begins, walks⟩
      cases begins with
      | root _ => exact .inl walks
      | folder nowhere => exact .inr ⟨nowhere, walks⟩
  | succ dots =>
    rw [if_neg (Nat.succ_ne_zero _), Nat.add_sub_cancel, Option.bind_eq_some_iff]
    constructor
    · rintro ⟨start, up, walks⟩
      exact ⟨start, .above up, pythonModule?_eq_some_iff.1 walks⟩
    · rintro ⟨start, ⟨up⟩, walks⟩
      exact ⟨start, up, pythonModule?_eq_some_iff.2 walks⟩

/-- A target of dots and names leads where the names lead from the folder at which they begin, and
nowhere else. Names behind a module file change nothing. -/
theorem path?_python (python : file.language = .python)
    (segments : ∀ name ∈ names, IsSegment '.' name) :
    (∀ path, r.path? tree file (target dots names) = some path ↔
      ∃ start, Start r tree file names dots start ∧ Walks tree start names path) ∧
    r.path? tree file (target dots []) = none ∧
    ∀ more, (∀ name ∈ more, IsSegment '.' name) → ∀ start k, Start r tree file names dots start →
      ModuleAt tree start names k →
        r.path? tree file (target dots (names ++ more)) =
          r.path? tree file (target dots names) := by
  have own : ∀ target, r.path? tree file target = r.pythonPath? tree file target := by
    intro target
    rw [path?, python]
  refine ⟨fun path => ?_, ?_, fun more segments' start k begins module => ?_⟩
  · rw [own, pythonPath?_target_eq_some_iff segments]
  · rw [own, Option.eq_none_iff_forall_ne_some]
    intro path led
    obtain ⟨start, -, walks⟩ := (pythonPath?_target_eq_some_iff (List.forall_mem_nil _)).1 led
    exact not_walks_nil walks
  · have here := (pythonPath?_target_eq_some_iff segments).2 ⟨start, begins, .module module⟩
    have all := List.forall_mem_append.2 ⟨segments, segments'⟩
    have further := (pythonPath?_target_eq_some_iff all).2
      ⟨start, begins.append module more, .module (module.append more)⟩
    rw [own, own, here, further, moduleFile_append module.within]

/-! ## A project with a package -/

namespace Python

/-- A package beside a file, with a module in it. -/
def packageTree : FileTree :=
  .single [("pkg", .folder [("__init__.py", .file .empty), ("io.py", .file .empty)]),
    ("main.py", .file .empty)]

def packageFile : SourceFile :=
  ⟨⟨"/p/main.py"⟩, "main.py", "", .python⟩

def packageResolver : Resolver :=
  ofProject ⟨"/p"⟩ [] ["main.py", "pkg/__init__.py", "pkg/io.py"]

theorem linkFree_packageTree : FileTree.LinkFree packageTree.top := by
  have file := FileTree.linkFree_file .empty .plain
  refine FileTree.linkFree_folder (List.forall_mem_singleton.2 ?_)
  refine FileTree.linkFree_folder (List.forall_mem_cons.2 ⟨?_, List.forall_mem_singleton.2 file⟩)
  exact FileTree.linkFree_folder (List.forall_mem_cons.2 ⟨file, List.forall_mem_singleton.2 file⟩)

theorem packages_packageTree : Packages packageTree ⟨"/p"⟩ ["pkg", "io"] 1 := by
  refine packages_cons_iff.2 ⟨⟨?_, ?_⟩, fun j below => absurd below (Nat.not_lt_zero j)⟩
  · exact (linkFree_packageTree.isFile_eq (by decide)).trans (by decide)
  · exact (linkFree_packageTree.isFile_eq (by decide)).trans (by decide)

theorem moduleAt_packageTree : ModuleAt packageTree ⟨"/p"⟩ ["pkg", "io"] 1 := by
  refine ⟨by decide, packages_packageTree, ?_⟩
  exact (linkFree_packageTree.isFile_eq (by decide)).trans (by decide)

end Python

/-- A module in a package, read from the root, from the folder of the file, and with a name of
the module behind it. -/
theorem path?_python_sample :
    packageResolver.path? packageTree packageFile "pkg.io" = some ⟨"/p/pkg/io.py"⟩ ∧
      packageResolver.path? packageTree packageFile ".pkg.io" = some ⟨"/p/pkg/io.py"⟩ ∧
      packageResolver.path? packageTree packageFile "pkg.io.open" = some ⟨"/p/pkg/io.py"⟩ := by
  have segments : ∀ name ∈ ["pkg", "io"], IsSegment '.' name := by decide
  have open' : ∀ name ∈ ["open"], IsSegment '.' name := by decide
  have walks := Walks.module moduleAt_packageTree
  have here : packageResolver.path? packageTree packageFile (target 0 ["pkg", "io"]) =
      some ⟨"/p/pkg/io.py"⟩ :=
    ((path?_python rfl segments).1 _).2 ⟨_, .root walks, walks⟩
  have above : packageResolver.path? packageTree packageFile (target 1 ["pkg", "io"]) =
      some ⟨"/p/pkg/io.py"⟩ :=
    ((path?_python rfl segments).1 _).2 ⟨_, .above rfl, walks⟩
  have further : packageResolver.path? packageTree packageFile (target 0 ["pkg", "io", "open"]) =
      packageResolver.path? packageTree packageFile (target 0 ["pkg", "io"]) :=
    (path?_python rfl segments).2.2 ["open"] open' _ 1 (.root walks) moduleAt_packageTree
  exact ⟨here, above, further.trans here⟩

end FileGraph.Resolver
