import FileGraph.Text.Split
import FileGraph.Text.WordChar

/-! # Statements in a text

How statements are found in a text, whatever the language:

* `Place`: where in a text one stands; `Place.step` walks over a character.
* `Hit`: one recognised statement, cut into what precedes its target, the target, and the rest
  of the statement.
* `Recogniser`: reads a statement that begins at a given place, if there is one.
* `search`: the statements of a text from left to right; no two of them overlap.

The last section holds the pieces from which recognisers are put together.
-/

namespace FileGraph.Statement

open Text

/-- Where in a text one stands. -/
structure Place where
  /-- The character passed last. -/
  before : Option Char
  offset : Nat
  /-- The current line, counted from 1. -/
  line : Nat
  deriving DecidableEq, Repr

namespace Place

def start : Place := ⟨none, 0, 1⟩

def step (p : Place) (c : Char) : Place :=
  ⟨some c, p.offset + 1, if c = '\n' then p.line + 1 else p.line⟩

def advance (p : Place) (text : List Char) : Place :=
  text.foldl step p

end Place

structure Hit where
  /-- What precedes the target. -/
  lead : List Char
  target : List Char
  /-- What follows the target and belongs to the statement. -/
  trail : List Char
  deriving DecidableEq, Repr

def Hit.size (hit : Hit) : Nat :=
  hit.lead.length + hit.target.length + hit.trail.length

/-- Reads a statement that begins where the text given begins; the first argument is the
character in front of it. -/
abbrev Recogniser := Option Char → List Char → Option Hit

/-- The targets of the statements in a text from left to right, each with its place. The first
argument counts the characters ahead that belong to the last statement found: the next one begins
behind them. -/
def search (recognise : Recogniser) : Nat → Place → List Char → List (Place × List Char)
  | _, _, [] => []
  | pending + 1, p, c :: rest => search recognise pending (p.step c) rest
  | 0, p, c :: rest =>
    match recognise p.before (c :: rest) with
    | none => search recognise 0 (p.step c) rest
    | some hit =>
      (p.advance hit.lead, hit.target) :: search recognise (hit.size - 1) (p.step c) rest

/-! ## Pieces of statements -/

def isGap (c : Char) : Bool :=
  c == ' ' || c == '\t'

def isQuote (c : Char) : Bool :=
  c == '\'' || c == '"'

/-- Whether a line begins behind the given character. -/
def atLineStart (before : Option Char) : Bool :=
  before == none || before == some '\n'

/-- Whether a text begins with a word character. -/
def beginsWithWord : List Char → Bool
  | [] => false
  | c :: _ => isWordChar c

/-- What is left behind characters of a class, if there is at least one of them. -/
def skipSome? (inClass : Char → Bool) : List Char → Option (List Char)
  | [] => none
  | c :: rest => if inClass c then some (rest.dropWhile inClass) else none

/-- The longest beginning of a text in a class and what is left behind it, if it is not empty. -/
def takeSome? (inClass : Char → Bool) (text : List Char) : Option (List Char × List Char) :=
  match text.takeWhile inClass with
  | [] => none
  | c :: taken => some (c :: taken, text.dropWhile inClass)

/-- What is left behind one character of a class. -/
def skipOne? (inClass : Char → Bool) : List Char → Option (List Char)
  | [] => none
  | c :: rest => if inClass c then some rest else none

/-- The part of `whole` in front of its end `rest`. -/
def upTo (whole rest : List Char) : List Char :=
  whole.take (whole.length - rest.length)

/-- The hit in `whole` whose target stands in front of `behindTarget`, the statement ending in
front of `rest`. -/
def Hit.within (whole target behindTarget rest : List Char) : Hit where
  lead := whole.take (whole.length - (target.length + behindTarget.length))
  target := target
  trail := upTo behindTarget rest

/-- A target between an opening and a closing character, in which neither a closing character nor
a line feed stands: the target, what follows it, and what follows the closing character. -/
def delimited? (opening closing : Char → Bool) (text : List Char) :
    Option (List Char × List Char × List Char) := do
  let inside ← skipOne? opening text
  let (target, behind) ← takeSome? (fun c => !closing c && c != '\n') inside
  let rest ← skipOne? closing behind
  return (target, behind, rest)

end FileGraph.Statement
