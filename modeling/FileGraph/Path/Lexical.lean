import FileGraph.Path

/-! # Paths with `.` and `..` worked out

* `Path.Lexical`: a path in normal form; one that starts at the root never climbs, and any other
  climbs first and descends afterwards.
* `Path.normalize`: the normal form of a path, found without looking at a file.
* `Path.relativeNames?` and `Path.relativeId?`: a path seen from a directory above it.
-/

namespace FileGraph.Path

/-- A path in normal form. -/
inductive Lexical where
  /-- Names read from the root. -/
  | rooted (names : List String)
  /-- Names read from the directory `climbs` levels above some starting point. -/
  | loose (climbs : Nat) (names : List String)
  deriving DecidableEq, Repr

namespace Lexical

/-- The names a path in normal form ends in. -/
def names : Lexical → List String
  | rooted names => names
  | loose _ names => names

/-- One component further. Above the root there is nothing to climb to. -/
def push : Lexical → Component → Lexical
  | rooted names, .name n => rooted (names ++ [n])
  | loose climbs names, .name n => loose climbs (names ++ [n])
  | rooted names, .up => rooted names.dropLast
  | loose climbs [], .up => loose (climbs + 1) []
  | loose climbs names, .up => loose climbs names.dropLast
  | _, .root => rooted []
  | l, .here => l

def components : Lexical → List Component
  | rooted names => .root :: names.map .name
  | loose climbs names => List.replicate climbs .up ++ names.map .name

def toPath : Lexical → Path
  | rooted names => ⟨"/" ++ "/".intercalate names⟩
  | loose climbs names => ⟨"/".intercalate (List.replicate climbs ".." ++ names)⟩

end Lexical

/-- The normal form of a path: `.` means nothing, and `..` takes back the name before it. -/
def normalize (p : Path) : Lexical :=
  p.components.foldl Lexical.push (.loose 0 [])

/-- What is left of `path` behind `above`, if that is a beginning of it. -/
def behind? : (above path : List Component) → Option (List Component)
  | [], path => some path
  | a :: above, p :: path => if a = p then behind? above path else none
  | _ :: _, [] => none

/-- A path seen from a directory above it: the components that are left, with `/` between them.
The directory itself has no such text. -/
def relativeId? (above path : List Component) : Option String :=
  match behind? above path with
  | none | some [] => none
  | some left => some ("/".intercalate (left.map Component.text))

end FileGraph.Path
