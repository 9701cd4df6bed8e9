import FileGraph.Statement.Hit

/-! # Import declarations of Go

* `single`: `import "target"`, perhaps with a name in front of the target.
* `block`: `import ( … )`; its target is all that stands between the parentheses.
* `entry`: a quoted target inside such a block.
-/

namespace FileGraph.Statement.Go

open Text

def importWord : List Char := ['i', 'm', 'p', 'o', 'r', 't']

/-- A target in double quotes. -/
def quoted? (text : List Char) : Option (List Char × List Char × List Char) :=
  delimited? (· == '"') (· == '"') text

/-- A name and the gap behind it, if a text begins with them. -/
def skipName (text : List Char) : List Char :=
  match takeSome? (fun c => isWordChar c || c == '.') text with
  | none => text
  | some (_, rest) => (skipSome? isGap rest).getD text

/-- `import "target"` or `import name "target"` at the beginning of a line. -/
def single : Recogniser := fun before text => do
  guard (atLineStart before)
  let behindWord ← after? importWord (text.dropWhile isGap)
  let behindGap ← skipSome? isGap behindWord
  let (target, behind, rest) ← quoted? (skipName behindGap)
  return .within text target behind rest

/-- `import (` at the beginning of a line, and all up to the first closing parenthesis. -/
def block : Recogniser := fun before text => do
  guard (atLineStart before)
  let behindWord ← after? importWord (text.dropWhile isGap)
  let inside ← skipOne? (· == '(') (behindWord.dropWhile isGap)
  let behind := inside.dropWhile (· != ')')
  let rest ← skipOne? (· == ')') behind
  return .within text (inside.takeWhile (· != ')')) behind rest

def entry : Recogniser := fun _ text => do
  let (target, behind, rest) ← quoted? text
  return .within text target behind rest

/-- The targets inside the blocks of a text. -/
def blockEntries (text : List Char) : List (Place × List Char) :=
  (search block 0 .start text).flatMap fun (place, body) => search entry 0 place body

end FileGraph.Statement.Go
