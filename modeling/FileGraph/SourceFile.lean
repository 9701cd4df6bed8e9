import FileGraph.FileTree
import FileGraph.Language

/-! # Source files

* `SourceFile`: a file that is looked at, with its text.
* `ScanError`: why there are no source files of a project.
* `ignoredFolders`: folders that are not part of a project's sources.
* `Entry.ordered`, `Entry.met`: what a walk meets that goes through every folder in the order of its
  names and into each folder as it comes, ignored folders left out.
* `SourceFile.gather`: the source files among what a walk meets, if every folder can be opened.
* `SourceFile.collect`: the source files of a project.

Names are texts, so a path is what its names say, and every file has a relative path of its own.
-/

namespace FileGraph

structure SourceFile where
  path : Path
  /-- The path from the root of the project, with `/` between its names. -/
  relativePath : String
  content : String
  language : Language
  deriving DecidableEq, Repr

def SourceFile.folder (file : SourceFile) : Path :=
  file.path.parent?.getD ⟨""⟩

/-- Why a project cannot be scanned. -/
inductive ScanError where
  | notFolder (path : Path)
  | unreachable (fault : Fault)
  /-- A folder of the project that cannot be opened. -/
  | traversal (path : Path) (fault : Fault)
  deriving DecidableEq, Repr

def faultMessage (fault : Fault) : String :=
  "IO error: " ++ fault.message

def ScanError.message : ScanError → String
  | notFolder path => "Not a directory: " ++ path.text
  | unreachable fault => faultMessage fault
  | traversal path fault =>
    "Cannot traverse " ++ path.text ++ ": IO error for operation on " ++ path.text ++ ": " ++
      fault.message

/-- Names of folders that are never entered. -/
def ignoredFolders : List String :=
  ["node_modules", ".git", "dist", "build", "out", ".vscode", "bin", "obj", "__pycache__", ".next",
    ".cache"]

namespace Entry

def isFolder : Entry → Bool
  | folder _ => true
  | _ => false

/-- Whether an entry is entered under a name: a folder with an ignored name is not. -/
def isEntered (name : String) (entry : Entry) : Bool :=
  !(entry.isFolder && ignoredFolders.contains name)

mutual

/-- An entry with its folders put in the order of their names. -/
def ordered : Entry → Entry
  | file bytes mode => file bytes mode
  | link target => link target
  | folder entries => folder ((orderedOf entries).mergeSort fun a b => a.1 ≤ b.1)

/-- Each entry of a folder put in order. -/
def orderedOf : List (String × Entry) → List (String × Entry)
  | [] => []
  | (name, entry) :: later => (name, ordered entry) :: orderedOf later

end

mutual

/-- What a walk meets that goes through an entry, each with the names that lead to it. Links are not
followed, and a folder comes before what is in it, which is not told of the folder itself. -/
def met : Entry → List (List String × Entry)
  | file bytes mode => [([], file bytes mode)]
  | link target => [([], link target)]
  | folder entries => ([], folder []) :: metIn entries

/-- What a walk meets that goes through the entries of a folder. -/
def metIn : List (String × Entry) → List (List String × Entry)
  | [] => []
  | (name, entry) :: later =>
    (if entry.isEntered name then (met entry).map fun (names, found) => (name :: names, found)
      else []) ++ metIn later

end

end Entry

namespace SourceFile

/-- The source file at the end of a list of names below `root`: a regular file whose ending announces a
language, that can be read, and whose bytes are text. -/
def admit? (root : Path) (names : List String) : Entry → Option SourceFile
  | .file bytes mode =>
    let path := names.foldl Path.join root
    if mode.isRegular then do
      let language ← path.extension?.bind Language.ofExtension?
      let content ←
        if FileTree.fits path && mode.isReadable then String.fromUTF8? bytes else none
      return ⟨path, "/".intercalate names, content, language⟩
    else none
  | _ => none

/-- Opens what a walk from a location on meets, if it is a folder. -/
def enter (tree : FileTree) (location : Location) (root : Path) (item : List String × Entry) :
    Except Fault Unit :=
  if item.2.isFolder then tree.openFolder (location ++ item.1) (item.1.foldl Path.join root)
  else .ok ()

/-- The source files among the things that a walk meets. The walk is given up at a folder that it cannot
open. -/
def gather (tree : FileTree) (location : Location) (root : Path) :
    List (List String × Entry) → Except ScanError (List SourceFile)
  | [] => .ok []
  | item :: later =>
    match enter tree location root item with
    | .error fault => .error (.traversal (item.1.foldl Path.join root) fault)
    | .ok () => do
      return (admit? root item.1 item.2).toList ++ (← gather tree location root later)

/-- The source files at and below an entry at a location that `root` leads to, in the order of their
names. -/
def below (tree : FileTree) (location : Location) (root : Path) (entry : Entry) :
    Except ScanError (List SourceFile) :=
  gather tree location root entry.ordered.met

/-- The source files of the project in the folder `root`. -/
def collect (tree : FileTree) (root : Path) : Except ScanError (List SourceFile) :=
  match tree.lookup root with
  | .ok (location, .folder entries) => below tree location root (.folder entries)
  | _ => .error (.notFolder root)

end SourceFile

end FileGraph
