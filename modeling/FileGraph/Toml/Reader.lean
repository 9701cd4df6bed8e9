import FileGraph.Toml
import FileGraph.Toml.Quoted

/-! # Reading TOML documents

* `Toml.value?`: a value, in which arrays and inline tables may be nested.
* `Toml.line?`: a line of a document: a header, a pair, or nothing.
* `Toml.parse`: the table that a document stands for; there is none if any line is wrong.
-/

namespace FileGraph.Toml

/-- How many keys a dotted key may join, and how deep values may be nested: less than this. -/
def depthLimit : Nat := 80

/-! ## Keys -/

/-- Whether a character may stand in a key without quotation marks. -/
def isBareKey (c : Char) : Bool :=
  c.isAlphanum || c == '_' || c == '-'

def simpleKey? : Reader String
  | [] => none
  | c :: rest =>
    if c = '"' ∨ c = '\'' then singleLine? (c :: rest)
    else
      match (c :: rest).takeWhile isBareKey with
      | [] => none
      | key => some (String.ofList key, (c :: rest).dropWhile isBareKey)

/-- Keys with dots between them and gaps anywhere. `fuel` bounds their number. -/
def dottedKeys : (fuel : Nat) → Reader (List String)
  | 0, _ => none
  | fuel + 1, text => do
    let (key, rest) ← simpleKey? (text.dropWhile isGap)
    match rest.dropWhile isGap with
    | '.' :: rest =>
      let (keys, rest) ← dottedKeys fuel rest
      return (key :: keys, rest)
    | rest => return ([key], rest)

/-- A key: those before its last dot, and the last. -/
def key? : Reader (List String × String) := fun text => do
  let (keys, rest) ← dottedKeys (depthLimit - 1) text
  return ((keys.dropLast, ← keys.getLast?), rest)

/-! ## Values -/

/-- A comment and the line feed behind it, or just that. -/
def commentedNewline? : List Char → Option (List Char)
  | '#' :: rest => newline? (rest.dropWhile isPlain)
  | text => newline? text

/-- A text without the gaps, comments and line feeds it begins with. `fuel` bounds the number of
lines. -/
def skipLines : (fuel : Nat) → List Char → List Char
  | 0, text => text
  | fuel + 1, text =>
    let text := text.dropWhile isGap
    match commentedNewline? text with
    | some rest => skipLines fuel rest
    | none => text

/-- A text without everything that means nothing inside an array. -/
def skipBlank (text : List Char) : List Char :=
  skipLines (text.length + 1) text

/-- The items of an array and its closing bracket. `fuel` bounds their number. -/
def items (value : Reader Toml) : (fuel : Nat) → Reader (List Toml)
  | 0, _ => none
  | fuel + 1, text =>
    match skipBlank text with
    | ']' :: rest => some ([], rest)
    | text => do
      let (item, rest) ← value text
      match skipBlank rest with
      | ',' :: rest =>
        let (later, rest) ← items value fuel rest
        return (item :: later, rest)
      | ']' :: rest => return ([item], rest)
      | _ => none

/-- A pair: a key, an equals sign and a value. -/
def pair (value : Reader Toml) : Reader (List String × String × Toml) := fun text => do
  let ((path, key), rest) ← key? text
  let rest ← Text.after? ['='] rest
  let (value, rest) ← value (rest.dropWhile isGap)
  return ((path, key, value), rest)

/-- The pairs of an inline table and its closing brace, the first pair being due. `fuel` bounds
their number. -/
def pairs (value : Reader Toml) : (fuel : Nat) → (entries : Entries) → Reader Entries
  | 0, _, _ => none
  | fuel + 1, entries, text => do
    let ((path, key, value'), rest) ← pair value text
    let entries ← addPair path key value' .closed entries
    match rest.dropWhile isGap with
    | ',' :: rest => pairs value fuel entries rest
    | '\x7d' :: rest => return (entries, rest)
    | _ => none

/-- An inline table, from behind its opening brace. -/
def inlineTable (value : Reader Toml) (text : List Char) : Option (Toml × List Char) :=
  match text.dropWhile isGap with
  | '\x7d' :: rest => some (.table .closed [], rest)
  | text => (pairs value (text.length + 1) [] text).map fun (entries, rest) =>
      (.table .closed entries, rest)

/-- A value, if `inner` reads the values inside arrays and inline tables. There are none without
it. -/
def valueWith (inner : Option (Reader Toml)) : Reader Toml := fun text =>
  match text with
  | [] => none
  | c :: rest =>
    if c = '"' ∨ c = '\'' then (string? text).map fun (s, rest) => (.string s, rest)
    else if c = '[' then do
      let (found, rest) ← items (← inner) (rest.length + 1) rest
      return (.array found, rest)
    else if c = '\x7b' then do inlineTable (← inner) rest
    else if c = 't' then (Text.after? ['t', 'r', 'u', 'e'] text).map (.flag true, ·)
    else if c = 'f' then (Text.after? ['f', 'a', 'l', 's', 'e'] text).map (.flag false, ·)
    else
      (moment? text).map (fun (s, rest) => (.moment s, rest)) <|>
        (float? text).map (fun (s, rest) => (.float s, rest)) <|>
          (integer? text).map (fun (s, rest) => (.integer s, rest))

/-- A value in which no more than `depth` arrays and inline tables are open inside each other. -/
def value? : (depth : Nat) → Reader Toml
  | 0 => valueWith none
  | depth + 1 => valueWith (some (value? depth))

/-! ## Documents -/

/-- The end of a line: gaps, perhaps a comment, and a line feed or the end of the document. -/
def lineEnd? (text : List Char) : Option (List Char) :=
  let rest :=
    match text.dropWhile isGap with
    | '#' :: comment => comment.dropWhile isPlain
    | rest => rest
  if rest = [] then some [] else newline? rest

/-- A document that is read so far: its table, and the header under which further pairs belong. -/
structure Reading where
  entries : Entries
  current : List String

/-- The document with its next line, and what follows that line. -/
def line? (reading : Reading) : List Char → Option (Reading × List Char)
  | '[' :: '[' :: text => do
    let ((path, key), rest) ← key? text
    let rest ← lineEnd? (← Text.after? [']', ']'] rest)
    return (⟨← openElement path key reading.entries, path ++ [key]⟩, rest)
  | '[' :: text => do
    let ((path, key), rest) ← key? text
    let rest ← lineEnd? (← Text.after? [']'] rest)
    return (⟨← openTable path key reading.entries, path ++ [key]⟩, rest)
  | text =>
    match text with
    | '#' :: _ => (lineEnd? text).map (reading, ·)
    | _ =>
      match newline? text with
      | some rest => some (reading, rest)
      | none => do
        let ((path, key, value), rest) ← pair (value? (depthLimit - 1)) text
        let rest ← lineEnd? rest
        return (⟨← addBelow reading.current path key value reading.entries, reading.current⟩, rest)

/-- The document with all its further lines. `fuel` bounds their number. -/
def lines? : (fuel : Nat) → Reading → List Char → Option Reading
  | 0, _, _ => none
  | fuel + 1, reading, text =>
    match text.dropWhile isGap with
    | [] => some reading
    | text => do
      let (reading, rest) ← line? reading text
      lines? fuel reading rest

/-- The table that a document stands for. A byte order mark in front of it does not count. -/
def parse (document : String) : Option Entries :=
  let text :=
    match document.toList with
    | '\ufeff' :: rest => rest
    | text => text
  (lines? (text.length + 1) ⟨[], []⟩ text).map (·.entries)

end FileGraph.Toml
