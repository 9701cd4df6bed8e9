import FileGraph.Toml.Scalar

/-! # Strings of TOML

The four forms of a string. Each reader starts behind the opening quotation marks.

* `basic` and `multilineBasic`: with escapes.
* `literal` and `multilineLiteral`: without.
-/

namespace FileGraph.Toml

/-- Whether a character may stand in a string or a comment as it is. -/
def isPlain (c : Char) : Bool :=
  c == '\t' || (32 ≤ c.toNat && c.toNat != 127)

/-- The character with a code given by hexadecimal digits, if there is one. -/
def scalar? (digits : List Char) : Option Char :=
  let code := valueIn 16 digits
  if digits.all isHexDigit ∧ code.isValidChar then some (Char.ofNat code) else none

/-- The character that an escape stands for; the reader starts behind the backslash. -/
def escape : Reader Char
  | 'b' :: rest => some ('\x08', rest)
  | 't' :: rest => some ('\t', rest)
  | 'n' :: rest => some ('\n', rest)
  | 'f' :: rest => some ('\x0c', rest)
  | 'r' :: rest => some ('\r', rest)
  | '"' :: rest => some ('"', rest)
  | '\\' :: rest => some ('\\', rest)
  | 'u' :: a :: b :: c :: d :: rest => (scalar? [a, b, c, d]).map (·, rest)
  | 'U' :: a :: b :: c :: d :: e :: f :: g :: h :: rest =>
    (scalar? [a, b, c, d, e, f, g, h]).map (·, rest)
  | _ => none

/-- A line feed, perhaps behind a carriage return. -/
def newline? : List Char → Option (List Char)
  | '\n' :: rest => some rest
  | '\r' :: '\n' :: rest => some rest
  | _ => none

def isGap (c : Char) : Bool :=
  c == ' ' || c == '\t'

/-- What follows the backslash at the end of a line: the rest of the line, which must be empty, and
all gaps and line feeds behind it are passed over. `fuel` bounds the number of lines. -/
def lineBreak? : (fuel : Nat) → List Char → Option (List Char)
  | 0, _ => none
  | fuel + 1, text => do
    let rest ← newline? (text.dropWhile isGap)
    return (lineBreak? fuel rest).getD (rest.dropWhile isGap)

/-- What stands in a row of quotation marks at the end of a string on several lines: up to two of
them belong to the string. Answers how many, and what follows the closing three. -/
def closing? (mark : Char) (text : List Char) : Option (Nat × List Char) :=
  let marks := (text.takeWhile (· == mark)).length
  if 3 ≤ marks then some (min (marks - 3) 2, text.drop (min marks 5)) else none

/-- The text of a basic string. `fuel` bounds its length. -/
def basic : (fuel : Nat) → Reader (List Char)
  | 0, _ => none
  | _ + 1, [] => none
  | fuel + 1, c :: rest =>
    if c = '"' then some ([], rest)
    else if c = '\\' then do
      let (c, rest) ← escape rest
      let (text, rest) ← basic fuel rest
      return (c :: text, rest)
    else if isPlain c then do
      let (text, rest) ← basic fuel rest
      return (c :: text, rest)
    else none

def literal : Reader (List Char)
  | [] => none
  | c :: rest =>
    if c = '\'' then some ([], rest)
    else if isPlain c then do
      let (text, rest) ← literal rest
      return (c :: text, rest)
    else none

/-- The text of a string on several lines, in which `mark` is the quotation mark. In the basic form
there are escapes, and a backslash at the end of a line joins the next one to it. -/
def multiline (mark : Char) (hasEscapes : Bool) : (fuel : Nat) → Reader (List Char)
  | 0, _ => none
  | _ + 1, [] => none
  | fuel + 1, c :: rest =>
    match closing? mark (c :: rest) with
    | some (count, rest) => some (List.replicate count mark, rest)
    | none =>
      match newline? (c :: rest) with
      | some rest => do
        let (text, rest) ← multiline mark hasEscapes fuel rest
        return ('\n' :: text, rest)
      | none =>
        if c = '\\' ∧ hasEscapes then
          match lineBreak? (rest.length + 1) rest with
          | some rest => multiline mark hasEscapes fuel rest
          | none => do
            let (c, rest) ← escape rest
            let (text, rest) ← multiline mark hasEscapes fuel rest
            return (c :: text, rest)
        else if isPlain c then do
          let (text, rest) ← multiline mark hasEscapes fuel rest
          return (c :: text, rest)
        else none

/-- A string on several lines, from behind its opening marks; a line feed right there does not
count. -/
def multilineBody (mark : Char) (hasEscapes : Bool) (text : List Char) :
    Option (List Char × List Char) :=
  let text := (newline? text).getD text
  multiline mark hasEscapes (text.length + 1) text

/-- A string on one line, of either form. -/
def singleLine? : Reader String
  | '"' :: rest => (basic (rest.length + 1) rest).map fun (s, rest) => (String.ofList s, rest)
  | '\'' :: rest => (literal rest).map fun (s, rest) => (String.ofList s, rest)
  | _ => none

def string? : Reader String
  | '"' :: '"' :: '"' :: rest =>
    (multilineBody '"' true rest).map fun (s, rest) => (String.ofList s, rest)
  | '\'' :: '\'' :: '\'' :: rest =>
    (multilineBody '\'' false rest).map fun (s, rest) => (String.ofList s, rest)
  | text => singleLine? text

end FileGraph.Toml
