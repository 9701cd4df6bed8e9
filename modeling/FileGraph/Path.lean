import FileGraph.Text.Split

/-! # Paths as they are written

A `Path` is a text with `/` between its segments. Nothing here looks at a file.

* `Path.components`: what the segments mean. Empty segments and `.` mean nothing, except that a
  leading `/` is the root and a leading `.` is kept.
* `Path.join`: a path read from the directory that another one names.
* `Path.parent?`, `Path.fileName?`, `Path.stem?`, `Path.extension?`: parts of a path.
* `Path.withSuffix`: a path with a text put directly behind it.
-/

namespace FileGraph

open Text (splitOn joinWith)

structure Path where
  text : String
  deriving DecidableEq, Repr, Inhabited

namespace Path

/-- The meaning of one segment of a path. -/
inductive Component where
  | root
  | here
  | up
  | name (text : String)
  deriving DecidableEq, Repr

def Component.text : Component → String
  | .root => "/"
  | .here => "."
  | .up => ".."
  | .name text => text

/-! ## Segments -/

/-- How a path begins. -/
inductive Start where
  /-- A leading slash. -/
  | root
  /-- A leading segment `.`. -/
  | here
  /-- Anything else. -/
  | plain
  deriving DecidableEq, Repr

/-- The beginning of a path and the segments behind it. -/
def layout (p : Path) : Start × List (List Char) :=
  match p.text.toList with
  | '/' :: rest => (.root, splitOn '/' rest)
  | text =>
    match splitOn '/' text with
    | ['.'] :: later => (.here, later)
    | segments => (.plain, segments)

/-- The path with a given beginning and given segments behind it. -/
def ofLayout (start : Start) (segments : List (List Char)) : Path :=
  match start, segments with
  | .root, _ => ⟨String.ofList ('/' :: joinWith '/' segments)⟩
  | .here, [] => ⟨"."⟩
  | .here, _ => ⟨String.ofList ('.' :: '/' :: joinWith '/' segments)⟩
  | .plain, _ => ⟨String.ofList (joinWith '/' segments)⟩

/-- Whether a segment behind the beginning means nothing. -/
def isIdle (segment : List Char) : Bool :=
  segment = [] || segment = ['.']

/-- What a segment behind the beginning means. -/
def componentOf? (segment : List Char) : Option Component :=
  if isIdle segment then none
  else if segment = ['.', '.'] then some .up
  else some (.name (String.ofList segment))

/-- The component that the beginning of a path stands for. -/
def Start.components : Start → List Component
  | .root => [.root]
  | .here => [.here]
  | .plain => []

def components (p : Path) : List Component :=
  p.layout.1.components ++ p.layout.2.filterMap componentOf?

/-! ## Putting paths together -/

def isAbsolute (p : Path) : Bool :=
  p.text.toList.head? == some '/'

/-- The path `text`, read from `base`: an absolute text starts over, any other is put behind a
slash. -/
def join (base : Path) (text : String) : Path :=
  if (Path.mk text).isAbsolute || base.text.isEmpty then ⟨text⟩
  else if base.text.toList.getLast? == some '/' then ⟨base.text ++ text⟩
  else ⟨base.text ++ "/" ++ text⟩

/-- A path with a text put directly behind it. -/
def withSuffix (p : Path) (suffix : String) : Path :=
  ⟨p.text ++ suffix⟩

/-! ## Parts of a path -/

/-- Segments without the idle ones at the end. -/
def trimEnd (segments : List (List Char)) : List (List Char) :=
  (segments.reverse.dropWhile isIdle).reverse

/-- A path without its last component: nothing is left above the root and above the empty path. -/
def parent? (p : Path) : Option Path :=
  let (start, segments) := p.layout
  match (trimEnd segments).reverse, start with
  | _ :: before, _ => some (ofLayout start (trimEnd before.reverse))
  | [], .here => some ⟨""⟩
  | [], _ => none

/-- The last component, if it is a name. -/
def fileName? (p : Path) : Option String :=
  match p.components.getLast? with
  | some (.name text) => some text
  | _ => none

/-- A file name cut at its last dot, if that dot is not its first character. -/
def cutAtDot (name : String) : String × Option String :=
  let ending := name.toList.reverse.takeWhile (· != '.')
  match name.toList.reverse.drop ending.length with
  | '.' :: c :: before => (String.ofList (c :: before).reverse, some (String.ofList ending.reverse))
  | _ => (name, none)

/-- The file name up to its last dot. -/
def stem? (p : Path) : Option String :=
  p.fileName?.map fun name => (cutAtDot name).1

/-- The file name behind its last dot. -/
def extension? (p : Path) : Option String :=
  p.fileName?.bind fun name => (cutAtDot name).2

end Path

end FileGraph
