import FileGraph.Statement.Hit

/-! # Statements that take a line each

Python, Java, C# and C write a dependency on one line, with nothing but a gap in front of it:

* `pythonImport`: `import target`, alone on its line.
* `pythonFrom`: `from target import …`.
* `packageUse`: `import target;` or `using target;`, perhaps with `static`.
* `includeFile`: `#include <target>` or `#include "target"`.
-/

namespace FileGraph.Statement.Line

open Text

def importWord : List Char := ['i', 'm', 'p', 'o', 'r', 't']

def fromWord : List Char := ['f', 'r', 'o', 'm']

def usingWord : List Char := ['u', 's', 'i', 'n', 'g']

def staticWord : List Char := ['s', 't', 'a', 't', 'i', 'c']

def includeWord : List Char := ['i', 'n', 'c', 'l', 'u', 'd', 'e']

def isDotted (c : Char) : Bool :=
  isWordChar c || c == '.'

def isOpeningMark (c : Char) : Bool :=
  c == '<' || c == '"'

def isClosingMark (c : Char) : Bool :=
  c == '>' || c == '"'

/-- What follows `word` and the gap behind it, in a text that begins with them. -/
def opening? (word text : List Char) : Option (List Char) := do
  let behindWord ← after? word (text.dropWhile isGap)
  skipSome? isGap behindWord

/-- Whether a line ends in front of a text. -/
def atLineEnd : List Char → Bool
  | [] => true
  | c :: _ => c == '\n'

/-- A text without the carriage return it begins with. -/
def skipReturn : List Char → List Char
  | '\r' :: rest => rest
  | text => text

/-! ## What a statement reads

The target, what follows it, and what follows the statement.
-/

/-- `import target`, with nothing behind it but a gap and the carriage return of a line end. -/
def readImport? (text : List Char) : Option (List Char × List Char × List Char) := do
  let named ← opening? importWord text
  let (target, behind) ← takeSome? isDotted named
  let rest := skipReturn (behind.dropWhile isGap)
  guard (atLineEnd rest)
  return (target, behind, rest)

/-- `from target import`; the target may consist of dots alone. -/
def readFrom? (text : List Char) : Option (List Char × List Char × List Char) := do
  let named ← opening? fromWord text
  let (target, behind) ← takeSome? isDotted named
  let behindGap ← skipSome? isGap behind
  let rest ← after? importWord behindGap
  guard (!beginsWithWord rest)
  return (target, behind, rest)

/-- A dotted name and the semicolon behind it. -/
def terminated? (text : List Char) : Option (List Char × List Char × List Char) := do
  let (target, behind) ← takeSome? isDotted text
  let rest ← skipOne? (· == ';') (behind.dropWhile isGap)
  return (target, behind, rest)

/-- What follows `static` and the gap behind it, in a text that begins with them. -/
def skipStatic? (text : List Char) : Option (List Char) := do
  let behindWord ← after? staticWord text
  skipSome? isGap behindWord

/-- `word target;` or `word static target;`. Where both readings are possible, `static` is not
the target. -/
def readPackage? (word text : List Char) : Option (List Char × List Char × List Char) := do
  let named ← opening? word text
  (skipStatic? named >>= terminated?) <|> terminated? named

/-- `#include <target>` or `#include "target"`; the two marks need not fit together. -/
def readInclude? (text : List Char) : Option (List Char × List Char × List Char) := do
  let behindHash ← skipOne? (· == '#') (text.dropWhile isGap)
  let behindWord ← after? includeWord (behindHash.dropWhile isGap)
  delimited? isOpeningMark isClosingMark (behindWord.dropWhile isGap)

/-! ## Recognisers -/

def atStart (read? : List Char → Option (List Char × List Char × List Char)) : Recogniser :=
  fun before text => do
    guard (atLineStart before)
    let (target, behind, rest) ← read? text
    return .within text target behind rest

def pythonImport : Recogniser := atStart readImport?

def pythonFrom : Recogniser := atStart readFrom?

def packageUse (word : List Char) : Recogniser := atStart (readPackage? word)

def includeFile : Recogniser := atStart readInclude?

end FileGraph.Statement.Line
