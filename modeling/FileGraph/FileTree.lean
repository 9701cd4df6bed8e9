import FileGraph.Path
import FileGraph.Text.Keyed

/-! # A tree of files

A file system as a value. Names are texts. Every folder can be gone through and written in, but some
cannot be listed; a file may be closed to reading or to writing, and some files do not keep what is
written to them.

* `Mode`: how a file takes being read and written.
* `Entry`: a file, a symbolic link, or a folder of named entries.
* `FileTree`: the folder at the top, the folder from which relative paths are read, and which folders
  can be listed.
* `FileTree.walk`: how a path leads from folder to folder, through links and `..`.
* `FileTree.lookup`: the entry a path leads to; `isFile`, `isFolder`, `readText` ask it.
* `FileTree.openFolder`: whether what is in a folder can be listed.
* `FileTree.canonicalize`: where a path leads, each place on the way asked for by its own full path.
* `FileTree.writeText`: what changes a tree.
* `Fault`: why a path does not lead where it should.
-/

namespace FileGraph

/-- How a file takes being read and written. -/
structure Mode where
  /-- A device is no regular file. -/
  isRegular : Bool
  isReadable : Bool
  isWritable : Bool
  /-- What is in the file once some bytes are written to it. A device may drop all of them, and a file
  that stands for something in the kernel may cut them short. -/
  keeps : ByteArray → ByteArray

/-- The mode of files on a disk, if they are not closed to anything. -/
def Mode.plain : Mode := ⟨true, true, true, id⟩

/-- What stands under a name. -/
inductive Entry where
  | file (bytes : ByteArray) (mode : Mode := .plain)
  | link (target : String)
  | folder (entries : List (String × Entry))
  deriving Inhabited

namespace Entry

/-- The named entries in a folder; there are none in anything else. -/
def entries : Entry → List (String × Entry)
  | folder entries => entries
  | _ => []

def child? (entry : Entry) (name : String) : Option Entry :=
  entry.entries.lookup name

/-- The entry under a list of names, each looked up in the folder before it. -/
def find? : Entry → List String → Option Entry
  | entry, [] => some entry
  | entry, name :: names => (entry.child? name).bind (·.find? names)

/-- A folder with `new` under a list of names; folders on the way are made if they are missing. -/
def insert : Entry → List String → Entry → Entry
  | _, [], new => new
  | entry, name :: names, new =>
    folder (Text.Keyed.put name (((entry.child? name).getD (folder [])).insert names new) entry.entries)

end Entry

/-- Why a path does not lead where it should. -/
inductive Fault where
  | missing
  | notFolder
  | isFolder
  | nameTooLong
  | tooManyLinks
  /-- No path holds the character with code zero. -/
  | invalidPath
  | denied
  /-- The bytes of the file are no text. -/
  | notText
  deriving DecidableEq, Repr

def Fault.message : Fault → String
  | .missing => "No such file or directory (os error 2)"
  | .notFolder => "Not a directory (os error 20)"
  | .isFolder => "Is a directory (os error 21)"
  | .nameTooLong => "File name too long (os error 36)"
  | .tooManyLinks => "Too many levels of symbolic links (os error 40)"
  | .denied => "Permission denied (os error 13)"
  | .invalidPath => "file name contained an unexpected NUL byte"
  | .notText => "stream did not contain valid UTF-8"

/-- Where an entry stands: the names that lead to it from the top. -/
abbrev Location := List String

def Location.toPath (location : Location) : Path :=
  ⟨"/" ++ "/".intercalate location⟩

/-- A file system, and the folder in it from which relative paths are read. -/
structure FileTree where
  top : Entry
  here : Location
  /-- Whether it may be asked what is in the folder at a location. -/
  isListed : Location → Bool := fun _ => true
  deriving Inhabited

namespace FileTree

/-! ## Following paths -/

/-- The steps a path asks for: its segments but the empty ones. A slash at the end asks that the
path lead to a folder, as a step `.` does. -/
def steps (text : String) : List String :=
  let segments := (Text.splitOn '/' text.toList).filter (· ≠ []) |>.map String.ofList
  if text.toList.getLast? = some '/' then segments ++ ["."] else segments

/-- How many bytes a name may have. -/
def nameLimit : Nat := 255

/-- How many bytes a path may have. -/
def pathLimit : Nat := 4095

/-- Whether a path is short enough to ask for what it leads to. -/
def fits (path : Path) : Bool :=
  path.text.utf8ByteSize ≤ pathLimit

/-- How many links may be followed on the way to one entry. -/
def linkLimit : Nat := 40

/-- Follows steps from the folder at `here` and answers the location they lead to. Only under the
last name may nothing stand. A link leads where its target, read from the folder the link is in,
leads; `links` is how many more may be followed. -/
def walk (top : Entry) (links : Nat) (here : Location) : List String → Except Fault Location
  | [] => .ok here
  | step :: rest =>
    if step = "." then walk top links here rest
    else if step = ".." then walk top links here.dropLast rest
    else if nameLimit < step.utf8ByteSize then .error .nameTooLong
    else match top.find? (here ++ [step]) with
      | none => if rest = [] then .ok (here ++ [step]) else .error .missing
      | some (.folder _) => walk top links (here ++ [step]) rest
      | some (.file ..) => if rest = [] then .ok (here ++ [step]) else .error .notFolder
      | some (.link target) =>
        match links with
        | 0 => .error .tooManyLinks
        | links + 1 =>
          walk top links (if (Path.mk target).isAbsolute then [] else here) (steps target ++ rest)
termination_by steps => (links, steps.length)

def origin (tree : FileTree) (path : Path) : Location :=
  if path.isAbsolute then [] else tree.here

/-- Whether a text can be a path at all. -/
def checkText (path : Path) : Except Fault Unit :=
  if path.text.isEmpty then .error .missing
  else if path.text.toList.contains '\x00' then .error .invalidPath
  else if pathLimit < path.text.utf8ByteSize then .error .nameTooLong
  else .ok ()

/-- Where a path leads to; under the last name nothing need stand. -/
def locate (tree : FileTree) (path : Path) : Except Fault Location := do
  checkText path
  walk tree.top linkLimit (tree.origin path) (steps path.text)

/-- The entry a path leads to, and where it stands. It is never a link. -/
def lookup (tree : FileTree) (path : Path) : Except Fault (Location × Entry) := do
  let location ← tree.locate path
  match tree.top.find? location with
  | none => .error .missing
  | some entry => .ok (location, entry)

/-- Whether a path leads to a regular file. -/
def isFile (tree : FileTree) (path : Path) : Bool :=
  match tree.lookup path with
  | .ok (_, .file _ mode) => mode.isRegular
  | _ => false

def isFolder (tree : FileTree) (path : Path) : Bool :=
  match tree.lookup path with
  | .ok (_, .folder _) => true
  | _ => false

def readText (tree : FileTree) (path : Path) : Except Fault String := do
  match ← tree.lookup path with
  | (_, .file bytes mode) =>
    if mode.isReadable then
      match String.fromUTF8? bytes with
      | some text => .ok text
      | none => .error .notText
    else .error .denied
  | _ => .error .isFolder

/-- Asks what is in the folder at a location, by a path that leads to it. -/
def openFolder (tree : FileTree) (location : Location) (path : Path) : Except Fault Unit :=
  if !fits path then .error .nameTooLong
  else if tree.isListed location then .ok ()
  else .error .denied

/-! ## Canonical paths -/

/-- The places that a walk asks for on its way. -/
def visited (top : Entry) (links : Nat) (here : Location) : List String → List Location
  | [] => []
  | step :: rest =>
    if step = "." then visited top links here rest
    else if step = ".." then visited top links here.dropLast rest
    else (here ++ [step]) :: match top.find? (here ++ [step]) with
      | some (.folder _) => visited top links (here ++ [step]) rest
      | some (.link target) =>
        match links with
        | 0 => []
        | links + 1 =>
          visited top links (if (Path.mk target).isAbsolute then [] else here) (steps target ++ rest)
      | _ => []
termination_by steps => (links, steps.length)

/-- Where a path leads to, if that and every place on the way can be asked for by its own path. -/
def canonicalize (tree : FileTree) (path : Path) : Except Fault Location := do
  let location ← tree.locate path
  let places := location :: visited tree.top linkLimit (tree.origin path) (steps path.text)
  if places.all fun place => fits place.toPath then .ok location else .error .nameTooLong

/-! ## Changing a tree -/

def place (tree : FileTree) (location : Location) (entry : Entry) : FileTree :=
  { tree with top := tree.top.insert location entry }

/-- Where a file with the given path can be written: over a file that is open to it, or where nothing
stands yet in a folder. A path that ends in a slash or a dot asks for a folder. -/
def writable (tree : FileTree) (path : Path) : Except Fault Location := do
  checkText path
  let walkTo := walk tree.top linkLimit (tree.origin path)
  if path.text.toList.getLast? = some '/' then
    -- The folder around the last name must be there before the slash is found fault with.
    let _ ← walkTo ((steps path.text).dropLast.dropLast ++ ["."])
    .error .isFolder
  let location ← walkTo (steps path.text)
  match tree.top.find? location with
  | some (.folder _) => .error .isFolder
  | some (.file _ mode) => if mode.isWritable then .ok location else .error .denied
  | _ => .ok location

/-- The mode of the file at a location. One that is not there yet will be plain. -/
def modeAt (tree : FileTree) (location : Location) : Mode :=
  match tree.top.find? location with
  | some (.file _ mode) => mode
  | _ => .plain

/-- The tree with what the file at a location keeps of the given bytes. -/
def fill (tree : FileTree) (location : Location) (bytes : ByteArray) : FileTree :=
  tree.place location (.file ((tree.modeAt location).keeps bytes) (tree.modeAt location))

/-- The tree with the given bytes written to the file that a path leads to. -/
def writeBytes (tree : FileTree) (path : Path) (bytes : ByteArray) : Except Fault FileTree := do
  return tree.fill (← tree.writable path) bytes

def writeText (tree : FileTree) (path : Path) (text : String) : Except Fault FileTree :=
  tree.writeBytes path text.toUTF8

end FileTree

end FileGraph
