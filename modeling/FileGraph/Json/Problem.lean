/-! # What can be wrong with a JSON text

A `Problem` says in which of three ways a text fails to be the document that is asked for. The
first one met in reading order is reported.
-/

namespace FileGraph.Json

/-- The ways in which a text fails to be a document of the wanted form. -/
inductive Problem where
  /-- The text breaks a rule of JSON. -/
  | malformed
  /-- The text ends too early. -/
  | truncated
  /-- The text is JSON so far, but not of the wanted form. -/
  | mismatched
  deriving DecidableEq, Repr

def Problem.category : Problem → String
  | .malformed => "syntax"
  | .truncated => "eof"
  | .mismatched => "data"

/-- Reads something at the beginning of a text and answers it with what follows. -/
abbrev Reader (α : Type) := List Char → Except Problem (α × List Char)

def isBlank (c : Char) : Bool :=
  c == ' ' || c == '\n' || c == '\t' || c == '\r'

def skipBlank (text : List Char) : List Char :=
  text.dropWhile isBlank

/-- Reads the given word and answers what follows. -/
def literal : (word : List Char) → List Char → Except Problem (List Char)
  | [], text => .ok text
  | _ :: _, [] => .error .truncated
  | w :: word, c :: text => if w = c then literal word text else .error .malformed

end FileGraph.Json
