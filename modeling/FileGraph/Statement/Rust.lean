import FileGraph.Statement.Hit

/-! # Use declarations of Rust

`useDeclaration` recognises `use a::b::c` at the beginning of a line, perhaps with a visibility in
front of it. Its target is the path up to the first thing that is no plain segment.
-/

namespace FileGraph.Statement.Rust

open Text

def useWord : List Char := ['u', 's', 'e']

def pubWord : List Char := ['p', 'u', 'b']

def doubleColon : List Char := [':', ':']

/-- A scope such as `(crate)`, if a text begins with one. -/
def skipScope (text : List Char) : List Char :=
  match skipOne? (· == '(') text with
  | none => text
  | some inside => (skipOne? (· == ')') (inside.dropWhile (· != ')'))).getD text

/-- A visibility and the gap behind it, if a text begins with them. -/
def skipVisibility (text : List Char) : List Char :=
  match after? pubWord text with
  | none => text
  | some rest => (skipSome? isGap (skipScope rest)).getD text

/-- How many characters of a text belong to further segments `::name`; `fuel` bounds how many
segments are read. -/
def furtherSegments : (fuel : Nat) → List Char → Nat
  | 0, _ => 0
  | fuel + 1, text =>
    match (after? doubleColon text).bind (takeSome? isWordChar) with
    | none => 0
    | some (segment, rest) => 2 + segment.length + furtherSegments fuel rest

/-- How many characters the path at the beginning of a text has. -/
def pathLength? (text : List Char) : Option Nat := do
  let colons := if (after? doubleColon text).isSome then 2 else 0
  let (segment, rest) ← takeSome? isWordChar (text.drop colons)
  return colons + segment.length + furtherSegments rest.length rest

/-- `use path` at the beginning of a line. -/
def useDeclaration : Recogniser := fun before text => do
  guard (atLineStart before)
  let behindWord ← after? useWord (skipVisibility (text.dropWhile isGap))
  let start ← skipSome? isGap behindWord
  let length ← pathLength? start
  return .within text (start.take length) (start.drop length) (start.drop length)

end FileGraph.Statement.Rust
