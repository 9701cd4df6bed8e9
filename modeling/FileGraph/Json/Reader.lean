import FileGraph.Json
import FileGraph.Json.Number
import FileGraph.Json.Quoted

/-! # Reading JSON documents of a given form

A document is checked against the wanted form while it is read, and the first problem in reading
order is the answer. Readers for the parts of a form answer a `Datum`:

* `text`, `count`, `flag`, `choice`: strings, unsigned numbers, truth values, one of several names.
* `list`: an array of parts of one form.
* `record`: an object with known keys, which may also be written as an array of their values.
* `optional`: a part that may be `null`.
* `mapping`: an object with arbitrary keys and values.

`document` reads a whole text.
-/

namespace FileGraph.Json

/-- What a document of a given form holds. -/
inductive Datum where
  | absent
  | text (s : String)
  | count (n : Nat)
  | flag (b : Bool)
  | list (items : List Datum)
  /-- The values of the known keys, in the order of their declaration. -/
  | record (values : List Datum)
  | mapping (entries : List (String × Json))
  deriving Inhabited

/-! ## Passing over values -/

def nullWord : List Char := ['n', 'u', 'l', 'l']

def trueWord : List Char := ['t', 'r', 'u', 'e']

def falseWord : List Char := ['f', 'a', 'l', 's', 'e']

def colon (text : List Char) : Except Problem (List Char) :=
  match skipBlank text with
  | [] => .error .truncated
  | c :: rest => if c = ':' then .ok rest else .error .malformed

mutual

/-- Passes over a value. Nesting has no limit but `fuel`, which the length of the text bounds. -/
def skipValue : (fuel : Nat) → List Char → Except Problem (List Char)
  | 0, _ => .error .malformed
  | fuel + 1, text =>
    match skipBlank text with
    | [] => .error .truncated
    | c :: rest =>
      if c = '"' then skipString rest
      else if c = '[' then
        match skipBlank rest with
        | [] => .error .truncated
        | ']' :: rest => .ok rest
        | rest => skipItems fuel rest
      else if c = '\x7b' then
        match skipBlank rest with
        | [] => .error .truncated
        | '\x7d' :: rest => .ok rest
        | rest => skipEntries fuel rest
      else if c = 'n' then literal nullWord (c :: rest)
      else if c = 't' then literal trueWord (c :: rest)
      else if c = 'f' then literal falseWord (c :: rest)
      else skipNumber (c :: rest)

/-- Passes over the items of an array, the first of which comes next, and the closing bracket. -/
def skipItems : (fuel : Nat) → List Char → Except Problem (List Char)
  | 0, _ => .error .malformed
  | fuel + 1, text => do
    let rest ← skipValue fuel text
    match skipBlank rest with
    | [] => .error .truncated
    | ',' :: rest => skipItems fuel rest
    | ']' :: rest => .ok rest
    | _ => .error .malformed

/-- Passes over the entries of an object, the first of which comes next, and the closing
bracket. -/
def skipEntries : (fuel : Nat) → List Char → Except Problem (List Char)
  | 0, _ => .error .malformed
  | fuel + 1, text => do
    match skipBlank text with
    | [] => .error .truncated
    | '"' :: rest =>
      let rest ← skipString rest
      let rest ← colon rest
      let rest ← skipValue fuel rest
      match skipBlank rest with
      | [] => .error .truncated
      | ',' :: rest => skipEntries fuel rest
      | '\x7d' :: rest => .ok rest
      | _ => .error .malformed
    | _ => .error .malformed

end

def skipAny (text : List Char) : Except Problem (List Char) :=
  skipValue (2 * text.length + 2) text

/-- The problem with a value, beginning with its first character, that is not of the wanted form:
it may be no JSON at all. -/
def wrongForm (text : List Char) : Problem :=
  let scalar {α : Type} (read : Except Problem α) : Problem :=
    match read with
    | .error problem => problem
    | .ok _ => .mismatched
  match text with
  | [] => .truncated
  | c :: rest =>
    if c = 'n' then scalar (literal nullWord text)
    else if c = 't' then scalar (literal trueWord text)
    else if c = 'f' then scalar (literal falseWord text)
    else if c = '-' ∨ Text.Decimal.isDigit c then scalar (numberText text)
    else if c = '"' then scalar (stringBody rest)
    else if c = '[' ∨ c = '\x7b' then .mismatched
    else .malformed

/-! ## Scalars -/

def textReader : Reader Datum := fun text =>
  match skipBlank text with
  | '"' :: rest => do
    let (s, rest) ← stringBody rest
    .ok (.text (String.ofList s), rest)
  | other => .error (wrongForm other)

/-- An unsigned number below `limit`. -/
def countReader (limit : Nat) : Reader Datum := fun text =>
  let text := skipBlank text
  match text with
  | [] => .error .truncated
  | c :: _ =>
    if c = '-' ∨ Text.Decimal.isDigit c then do
      let (written, rest) ← numberText text
      match written.natural? with
      | some n => if n < limit then .ok (.count n, rest) else .error .mismatched
      | none => .error .mismatched
    else .error (wrongForm text)

def flagReader : Reader Datum := fun text =>
  match skipBlank text with
  | 't' :: rest => do
    let rest ← literal trueWord ('t' :: rest)
    .ok (.flag true, rest)
  | 'f' :: rest => do
    let rest ← literal falseWord ('f' :: rest)
    .ok (.flag false, rest)
  | other => .error (wrongForm other)

/-- A string that is one of several names. -/
def nameReader (names : List String) : Reader Datum := fun text =>
  match skipBlank text with
  | '"' :: rest => do
    let (s, rest) ← stringBody rest
    if String.ofList s ∈ names then .ok (.text (String.ofList s), rest) else .error .mismatched
  | other => .error (wrongForm other)

/-- One of several names; it may also be written as the only key of an object, with the value
`null`. -/
def choiceReader (names : List String) : Reader Datum := fun text =>
  match skipBlank text with
  | [] => .error .truncated
  | '"' :: rest => nameReader names ('"' :: rest)
  | '\x7b' :: rest => do
    let (name, rest) ← nameReader names rest
    let rest ← colon rest
    let rest ←
      match skipBlank rest with
      | 'n' :: rest => literal nullWord ('n' :: rest)
      | other => .error (wrongForm other)
    match skipBlank rest with
    | [] => .error .truncated
    | '\x7d' :: rest => .ok (name, rest)
    | _ => .error .malformed
  | _ => .error .malformed

/-- A part that may be `null`. -/
def optionalReader (read : Reader Datum) : Reader Datum := fun text =>
  match skipBlank text with
  | 'n' :: rest => do
    let rest ← literal nullWord ('n' :: rest)
    .ok (.absent, rest)
  | _ => read text

/-! ## Arrays -/

/-- The text from which the next item of an array is read, if there is one. -/
def nextItem (first : Bool) (text : List Char) : Except Problem (Option (List Char)) :=
  match skipBlank text with
  | [] => .error .truncated
  | c :: rest =>
    if c = ']' then .ok none
    else if first then .ok (some (c :: rest))
    else if c = ',' then
      match skipBlank rest with
      | [] => .error .truncated
      | ']' :: _ => .error .malformed
      | rest => .ok (some rest)
    else .error .malformed

def closeArray (text : List Char) : Except Problem (List Char) :=
  match skipBlank text with
  | [] => .error .truncated
  | ']' :: rest => .ok rest
  | _ => .error .malformed

/-- The items of an array, up to its closing bracket. `fuel` bounds their number. -/
def itemsReader {α : Type} (read : Reader α) : (fuel : Nat) → (first : Bool) → Reader (List α)
  | 0, _ => fun _ => .error .malformed
  | fuel + 1, first => fun text => do
    match ← nextItem first text with
    | none => .ok ([], text)
    | some text =>
      let (item, rest) ← read text
      let (items, rest) ← itemsReader read fuel false rest
      .ok (item :: items, rest)

/-- What is between the brackets of an array, the opening one being passed. -/
def arrayBody {α : Type} (read : Reader α) : Reader (List α) := fun text => do
  let (items, rest) ← itemsReader read (text.length + 1) true text
  let rest ← closeArray rest
  .ok (items, rest)

def listReader (read : Reader Datum) : Reader Datum := fun text =>
  match skipBlank text with
  | '[' :: rest => do
    let (items, rest) ← arrayBody read rest
    .ok (.list items, rest)
  | other => .error (wrongForm other)

/-! ## Objects -/

/-- The next key of an object and what follows it, if there is one. -/
def nextKey (first : Bool) (text : List Char) : Except Problem (Option (String × List Char)) :=
  let key (text : List Char) : Except Problem (Option (String × List Char)) :=
    match text with
    | '"' :: rest => do
      let (s, rest) ← stringBody rest
      .ok (some (String.ofList s, rest))
    | _ => .error .malformed
  match skipBlank text with
  | [] => .error .truncated
  | c :: rest =>
    if c = '\x7d' then .ok none
    else if first then key (c :: rest)
    else if c = ',' then
      match skipBlank rest with
      | [] => .error .truncated
      | rest => key rest
    else .error .malformed

def closeObject (text : List Char) : Except Problem (List Char) :=
  match skipBlank text with
  | [] => .error .truncated
  | '\x7d' :: rest => .ok rest
  | _ => .error .malformed

/-- The entries of an object, up to its closing bracket. `fuel` bounds their number. -/
def entriesReader {α : Type} (read : Reader α) :
    (fuel : Nat) → (first : Bool) → Reader (List (String × α))
  | 0, _ => fun _ => .error .malformed
  | fuel + 1, first => fun text => do
    match ← nextKey first text with
    | none => .ok ([], text)
    | some (key, rest) =>
      let rest ← colon rest
      let (value, rest) ← read rest
      let (entries, rest) ← entriesReader read fuel false rest
      .ok ((key, value) :: entries, rest)

/-- What is between the brackets of an object, the opening one being passed. -/
def objectBody {α : Type} (read : Reader α) : Reader (List (String × α)) := fun text => do
  let (entries, rest) ← entriesReader read (text.length + 1) true text
  let rest ← closeObject rest
  .ok (entries, rest)

/-- Entries in which each key stands once: where it stood first, with its last value. -/
def lastValues {α : Type} (entries : List (String × α)) : List (String × α) :=
  entries.foldl
    (fun kept entry =>
      if kept.any (·.1 == entry.1) then
        kept.map fun old => if old.1 == entry.1 then entry else old
      else kept ++ [entry])
    []

/-! ## Arbitrary values -/

/-- Any value, if `inner` reads the values inside an array or an object. There are none without
it. -/
def valueWith (inner : Option (Reader Json)) : Reader Json := fun text =>
  match skipBlank text with
  | [] => .error .truncated
  | c :: rest =>
    if c = 'n' then do
      let rest ← literal nullWord (c :: rest)
      .ok (.null, rest)
    else if c = 't' then do
      let rest ← literal trueWord (c :: rest)
      .ok (.bool true, rest)
    else if c = 'f' then do
      let rest ← literal falseWord (c :: rest)
      .ok (.bool false, rest)
    else if c = '-' ∨ Text.Decimal.isDigit c then do
      let (written, rest) ← numberText (c :: rest)
      .ok (.number (String.ofList written.render), rest)
    else if c = '"' then do
      let (s, rest) ← stringBody rest
      .ok (.string (String.ofList s), rest)
    else if c = '[' then
      match inner with
      | none => .error .malformed
      | some inner => do
        let (items, rest) ← arrayBody inner rest
        .ok (.array items, rest)
    else if c = '\x7b' then
      match inner with
      | none => .error .malformed
      | some inner => do
        let (entries, rest) ← objectBody inner rest
        .ok (.object (lastValues entries), rest)
    else .error .malformed

/-- Any value in which no more than `depth` arrays and objects are open inside each other. -/
def valueReader : (depth : Nat) → Reader Json
  | 0 => valueWith none
  | depth + 1 => valueWith (some (valueReader depth))

/-- An object with arbitrary keys and values; `depth` is how deep the values may be nested. -/
def mappingReader (depth : Nat) : Reader Datum := fun text =>
  match skipBlank text with
  | '\x7b' :: rest => do
    let (entries, rest) ← objectBody (valueReader depth) rest
    .ok (.mapping (lastValues entries), rest)
  | other => .error (wrongForm other)

/-! ## Records -/

/-- A known key of a record. -/
structure Field where
  name : String
  read : Reader Datum
  /-- Whether the key may be left out. -/
  canBeAbsent : Bool

/-- The values of a record written as an array, up to its closing bracket. -/
def tupleReader : List Field → (first : Bool) → Reader (List Datum)
  | [], _ => fun text => .ok ([], text)
  | field :: later, first => fun text => do
    match ← nextItem first text with
    | none =>
      if field.canBeAbsent then
        let (values, rest) ← tupleReader later first text
        .ok (.absent :: values, rest)
      else .error .mismatched
    | some text =>
      let (value, rest) ← field.read text
      let (values, rest) ← tupleReader later false rest
      .ok (value :: values, rest)

/-- The known keys of a record written as an object, up to its closing bracket, with their values.
Other keys are passed over, and no known key may stand twice. `fuel` bounds the number of keys. -/
def fieldsReader (fields : List Field) :
    (fuel : Nat) → (first : Bool) → (known : List (String × Datum)) →
      Reader (List (String × Datum))
  | 0, _, _ => fun _ => .error .malformed
  | fuel + 1, first, known => fun text => do
    match ← nextKey first text with
    | none => .ok (known, text)
    | some (key, rest) =>
      match fields.find? (·.name == key) with
      | none =>
        let rest ← colon rest
        let rest ← skipAny rest
        fieldsReader fields fuel false known rest
      | some field =>
        if (known.lookup key).isSome then .error .mismatched
        else
          let rest ← colon rest
          let (value, rest) ← field.read rest
          fieldsReader fields fuel false (known ++ [(key, value)]) rest

/-- The values of all fields, in their order. -/
def complete (known : List (String × Datum)) : List Field → Except Problem (List Datum)
  | [] => .ok []
  | field :: later => do
    let value ←
      match known.lookup field.name with
      | some value => .ok value
      | none => if field.canBeAbsent then .ok .absent else .error .mismatched
    let values ← complete known later
    .ok (value :: values)

/-- A record: an object with the given keys, or an array of their values. -/
def recordReader (fields : List Field) : Reader Datum := fun text =>
  match skipBlank text with
  | '[' :: rest => do
    let (values, rest) ← tupleReader fields true rest
    let rest ← closeArray rest
    .ok (.record values, rest)
  | '\x7b' :: rest => do
    let (known, rest) ← fieldsReader fields (rest.length + 1) true [] rest
    let values ← complete known fields
    let rest ← closeObject rest
    .ok (.record values, rest)
  | other => .error (wrongForm other)

/-! ## Whole documents -/

/-- A document that fills the whole text. -/
def document (read : Reader Datum) (text : String) : Except Problem Datum := do
  let (value, rest) ← read text.toList
  if (skipBlank rest).isEmpty then .ok value else .error .malformed

end FileGraph.Json
