import FileGraph.Statement.Hit

/-! # Statements of scripts

The four forms in which a TypeScript or JavaScript text names another module:

* `importFrom`: `import … from "target"`.
* `requireCall`: `require("target")`.
* `importCall`: `import("target")`.
* `exportFrom`: `export … from "target"`.

Comments and string literals are not told apart from code.
-/

namespace FileGraph.Statement.Script

open Text

def importWord : List Char := ['i', 'm', 'p', 'o', 'r', 't']

def exportWord : List Char := ['e', 'x', 'p', 'o', 'r', 't']

def requireWord : List Char := ['r', 'e', 'q', 'u', 'i', 'r', 'e']

def fromWord : List Char := ['f', 'r', 'o', 'm']

/-- Whether the place behind the given character is no place inside a word. -/
def outsideWord (before : Option Char) : Bool :=
  match before with
  | none => true
  | some c => !isWordChar c

/-- A target in quotation marks; the two marks may be of different forms. -/
def quoted? (text : List Char) : Option (List Char × List Char × List Char) :=
  delimited? isQuote isQuote text

/-- The clause `from "target"`. -/
def fromClause? (text : List Char) : Option (List Char × List Char × List Char) := do
  let behindWord ← after? fromWord text
  quoted? (behindWord.dropWhile isBlankChar)

/-- The first clause `from "target"` ahead. No quotation mark and no semicolon may stand in front
of it, and its first word must stand alone. -/
def firstFromClause? : (before : Option Char) → List Char →
    Option (List Char × List Char × List Char)
  | _, [] => none
  | before, c :: rest =>
    match if outsideWord before then fromClause? (c :: rest) else none with
    | some clause => some clause
    | none => if isQuote c || c == ';' then none else firstFromClause? (some c) rest

/-- A statement that begins with `word` and ends in a clause `from "target"`. -/
def fromStatement (word : List Char) : Recogniser := fun before text => do
  guard (outsideWord before)
  let behindWord ← after? word text
  let bindings ← skipSome? isBlankChar behindWord
  let (target, behind, rest) ← firstFromClause? none bindings
  return .within text target behind rest

/-- A call `word("target")`, with blanks anywhere. -/
def call (word : List Char) : Recogniser := fun before text => do
  guard (outsideWord before)
  let behindWord ← after? word text
  let inside ← skipOne? (· == '(') (behindWord.dropWhile isBlankChar)
  let (target, behind, rest) ← quoted? (inside.dropWhile isBlankChar)
  let rest ← skipOne? (· == ')') (rest.dropWhile isBlankChar)
  return .within text target behind rest

def importFrom : Recogniser := fromStatement importWord

def requireCall : Recogniser := call requireWord

def importCall : Recogniser := call importWord

def exportFrom : Recogniser := fromStatement exportWord

end FileGraph.Statement.Script
