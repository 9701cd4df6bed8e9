import FileGraph.Alias
import FileGraph.Path.Lexical
import FileGraph.SourceFile

/-! # From a written target to a file of the project

* `Resolver`: what is known of a project: its root, its aliases, the ids of its files.
* `Resolver.path?`: the file that a target, written in a given file, leads to. Each family of
  languages has its own way of searching: `scriptPath?`, `pythonPath?`, `packagePath?`,
  `includePath?`, `goPath?` and `rustPath?`.
* `Resolver.idFor?`: the id of the file at a path: that of its place, else that of its name.
* `Resolver.resolve?`: both in one.
-/

namespace FileGraph

/-- What resolving needs to know of a project. -/
structure Resolver where
  root : Path.Lexical
  aliases : AliasTable
  ids : List String

namespace Resolver

def ofProject (root : Path) (aliases : AliasTable) (ids : List String) : Resolver :=
  ⟨root.normalize, aliases, ids⟩

/-! ## Paths that are tried -/

def firstFile? (tree : FileTree) (paths : List Path) : Option Path :=
  paths.find? tree.isFile

/-- What is tried for a path: for each ending of the language the path with the ending and the
index file with the ending in the folder of that name, and last the path as it is. -/
def probes (language : Language) (base : Path) : List Path :=
  language.probeEndings.flatMap
    (fun ending => [base.withSuffix ending, base.join ("index" ++ ending)]) ++ [base]

/-- What is tried for an included file: the path with each ending, and last as it is. -/
def includeProbes (base : Path) : List Path :=
  [".h", ".hpp", ".c", ".cpp"].map base.withSuffix ++ [base]

def pieces (split : List Char → List (List Char)) (text : List Char) : List String :=
  ((split text).filter (· ≠ [])).map String.ofList

/-- A folder and the folders above it, up to the root of the project and no more than `limit` of
them. -/
def foldersUp (root : Path.Lexical) : (limit : Nat) → Path → List Path
  | 0, _ => []
  | limit + 1, folder =>
    folder ::
      if folder.normalize = root then []
      else match folder.parent? with
        | none => []
        | some above => foldersUp root limit above

/-- The folder `count` levels up. -/
def up? : (count : Nat) → Path → Option Path
  | 0, folder => some folder
  | count + 1, folder => folder.parent?.bind (up? count)

/-! ## TypeScript and JavaScript, Go, C -/

/-- A target that an alias matches is looked for under that alias only. Any other must begin with
a dot or a slash, and is read from the folder of the file. -/
def scriptPath? (r : Resolver) (tree : FileTree) (file : SourceFile) (target : String) :
    Option Path :=
  match r.aliases.rewrite? target with
  | some rewritten => firstFile? tree (probes file.language (r.root.toPath.join rewritten))
  | none =>
    if target.toList.head? = some '.' ∨ target.toList.head? = some '/' then
      firstFile? tree (probes file.language (file.folder.join target))
    else none

/-- A target is read from the folder of the file, else from the root. -/
def goPath? (r : Resolver) (tree : FileTree) (file : SourceFile) (target : String) :
    Option Path :=
  firstFile? tree (probes .go (file.folder.join target)) <|>
    firstFile? tree (probes .go (r.root.toPath.join target))

/-- A target is read from the folder of the file. -/
def includePath? (tree : FileTree) (file : SourceFile) (target : String) : Option Path :=
  firstFile? tree (includeProbes (file.folder.join target))

/-! ## Python -/

/-- The module that names lead to from a folder: the first of them that is a module file there,
as long as the names before it are packages, or the package that the last name is. -/
def pythonModule? (tree : FileTree) : (folder : Path) → List String → Option Path
  | _, [] => none
  | folder, name :: later =>
    let moduleFile := folder.join (name ++ ".py")
    if tree.isFile moduleFile then some moduleFile
    else
      let package := folder.join name
      let marker := package.join "__init__.py"
      if !tree.isFile marker then none
      else if later = [] then some marker
      else pythonModule? tree package later

/-- A target with leading dots is read from the folder of the file, or as many levels above it as
there are further dots; one without is read from the root, else from the folder of the file. -/
def pythonPath? (r : Resolver) (tree : FileTree) (file : SourceFile) (target : String) :
    Option Path :=
  let dots := target.toList.takeWhile (· == '.')
  let names := pieces (Text.splitOn '.') (target.toList.dropWhile (· == '.'))
  if dots = [] then
    pythonModule? tree r.root.toPath names <|> pythonModule? tree file.folder names
  else
    (up? (dots.length - 1) file.folder).bind (pythonModule? tree · names)

/-! ## Java and C# -/

/-- How many folders are tried as the root of a package. -/
def packageLevels : Nat := 10

/-- A class is looked for in the folder of its package, which is read from the folder of the file
and then from the folders above it. -/
def packagePath? (r : Resolver) (tree : FileTree) (file : SourceFile) (ending target : String) :
    Option Path :=
  match (pieces (Text.splitOn '.') target.toList).reverse with
  | [] => none
  | className :: package =>
    let relative := (package.reverse ++ [className ++ ending]).foldl Path.join ⟨""⟩
    firstFile? tree
      ((foldersUp r.root packageLevels file.folder).map fun folder => folder.join relative.text)

/-! ## Rust -/

/-- The folder in which the children of the module in a file are. Names are texts, so that there is no
stem that cannot be compared. -/
def moduleFolder? (file : Path) : Option Path := do
  let folder ← file.parent?
  let stem ← file.stem?
  return if stem = "mod" ∨ stem = "lib" ∨ stem = "main" then folder else folder.join stem

/-- The nearest folder, from the given one up to the root of the project, that holds the main file
of a crate. -/
def crateFolder? (r : Resolver) (tree : FileTree) (folder : Path) : Option Path :=
  (foldersUp r.root (folder.components.length + 1) folder).find? fun folder =>
    tree.isFile (folder.join "lib.rs") || tree.isFile (folder.join "main.rs")

/-- The file that the segments of a path lead to from a folder. Segments that are folders with a
`mod.rs` are entered; the first other one decides. -/
def rustModule? (tree : FileTree) : (folder : Path) → List String → Option Path
  | _, [] => none
  | folder, segment :: later =>
    let inner := folder.join segment
    if tree.isFile (inner.join "lib.rs") then some (inner.join "lib.rs")
    -- A folder module that is the last segment is no file of its own.
    else if tree.isFile (inner.join "mod.rs") then rustModule? tree inner later
    else firstFile? tree [folder.join (segment ++ ".rs")]

/-- Where a path begins, and the segments that are left: a leading `crate`, `self` or row of
`super` names a folder, and any other path begins in the folder of the file. -/
def rustStart? (r : Resolver) (tree : FileTree) (file folder : Path) (segments : List String) :
    Option (Path × List String) :=
  match segments with
  | "crate" :: later => (r.crateFolder? tree folder).map (·, later)
  | "self" :: later => (moduleFolder? file).map (·, later)
  | "super" :: _ => do
    let ups := segments.takeWhile (· == "super")
    let start ← up? ups.length (← moduleFolder? file)
    return (start, segments.drop ups.length)
  | _ => some (folder, segments)

def rustPath? (r : Resolver) (tree : FileTree) (file : Path) (target : String) : Option Path := do
  let folder ← file.parent?
  let segments := pieces (Text.splitOnDouble ':') target.toList
  let (start, later) ← r.rustStart? tree file folder segments
  rustModule? tree start later

/-! ## All languages -/

/-- The file that a target, written in `file`, leads to. -/
def path? (r : Resolver) (tree : FileTree) (file : SourceFile) (target : String) : Option Path :=
  match file.language with
  | .typeScript | .javaScript => r.scriptPath? tree file target
  | .go => r.goPath? tree file target
  | .c | .cpp => includePath? tree file target
  | .python => r.pythonPath? tree file target
  | .java => r.packagePath? tree file ".java" target
  | .cSharp => r.packagePath? tree file ".cs" target
  | .rust => r.rustPath? tree file.path target
  | .ruby | .php | .swift | .kotlin | .scala | .dart | .vue | .svelte | .unknown => none

/-- The part of an id behind its last slash. -/
def baseName (id : String) : String :=
  String.ofList ((Text.splitOn '/' id.toList).getLast?.getD [])

/-- The id of the file at a path: the path itself as seen from the root, if that is an id, and
otherwise the first id with the same file name. -/
def idFor? (r : Resolver) (path : Path) : Option String :=
  let normal := path.normalize
  match (Path.relativeId? r.root.components normal.components).filter (r.ids.contains ·) with
  | some id => some id
  | none => normal.names.getLast?.bind fun name => r.ids.find? (baseName · == name)

/-- The id of the file that a target, written in `file`, leads to. -/
def resolve? (r : Resolver) (tree : FileTree) (file : SourceFile) (target : String) :
    Option String :=
  (r.path? tree file target).bind r.idFor?

end Resolver

end FileGraph
