import FileGraph.Text.Decimal
import FileGraph.Text.Split

/-! # JSON values and how they are written

* `Json`: a value; an object keeps the order of its entries.
* `Json.quoted`: a text as a JSON string. Only what must be escaped is.
* `Json.pretty`: a value on several lines, two spaces for each level.
-/

namespace FileGraph

inductive Json where
  | null
  | bool (b : Bool)
  /-- A number, kept as it is written. -/
  | number (literal : String)
  | string (text : String)
  | array (items : List Json)
  | object (entries : List (String × Json))
  deriving Inhabited

namespace Json

def ofNat (n : Nat) : Json :=
  .number (Text.Decimal.render n)

/-! ## Strings -/

/-- A hexadecimal digit, in lower case. -/
def hexDigit (d : Nat) : Char :=
  if d < 10 then Char.ofNat (48 + d) else Char.ofNat (87 + d)

/-- A character inside a JSON string. Quotation marks, backslashes and control characters are
escaped, the latter by a letter where there is one. -/
def escaped (c : Char) : List Char :=
  if c = '"' then ['\\', '"']
  else if c = '\\' then ['\\', '\\']
  else if c = '\n' then ['\\', 'n']
  else if c = '\r' then ['\\', 'r']
  else if c = '\t' then ['\\', 't']
  else if c = '\x08' then ['\\', 'b']
  else if c = '\x0c' then ['\\', 'f']
  else if c.toNat < 32 then
    ['\\', 'u', '0', '0', hexDigit (c.toNat / 16), hexDigit (c.toNat % 16)]
  else [c]

def quoted (text : String) : List Char :=
  '"' :: (text.toList.flatMap escaped ++ ['"'])

/-! ## Values on several lines -/

/-- A line feed and the spaces that begin a line at the given level. -/
def newline (level : Nat) : List Char :=
  '\n' :: List.replicate (2 * level) ' '

/-- Pieces between brackets, each on a line of its own one level deeper. -/
def bracketed (level : Nat) (opening closing : Char) (pieces : List (List Char)) : List Char :=
  if pieces.isEmpty then [opening, closing]
  else
    opening :: (Text.joinWith ',' (pieces.map (newline (level + 1) ++ ·)) ++
      (newline level ++ [closing]))

mutual

/-- A value whose first line stands at the given level. -/
def prettyAt (level : Nat) : Json → List Char
  | .null => ['n', 'u', 'l', 'l']
  | .bool true => ['t', 'r', 'u', 'e']
  | .bool false => ['f', 'a', 'l', 's', 'e']
  | .number literal => literal.toList
  | .string text => quoted text
  | .array items => bracketed level '[' ']' (prettyItems (level + 1) items)
  | .object entries => bracketed level '\x7b' '\x7d' (prettyEntries (level + 1) entries)

def prettyItems (level : Nat) : List Json → List (List Char)
  | [] => []
  | item :: later => prettyAt level item :: prettyItems level later

/-- The entries of an object: key, colon, space and value. -/
def prettyEntries (level : Nat) : List (String × Json) → List (List Char)
  | [] => []
  | (key, value) :: later =>
    (quoted key ++ (':' :: ' ' :: prettyAt level value)) :: prettyEntries level later

end

def pretty (value : Json) : String :=
  String.ofList (prettyAt 0 value)

theorem prettyItems_eq_map (level : Nat) (items : List Json) :
    prettyItems level items = items.map (prettyAt level) := by
  induction items with
  | nil => rfl
  | cons item later ih => simp [prettyItems, ih]

theorem prettyEntries_eq_map (level : Nat) (entries : List (String × Json)) :
    prettyEntries level entries =
      entries.map fun entry => quoted entry.1 ++ (':' :: ' ' :: prettyAt level entry.2) := by
  induction entries with
  | nil => rfl
  | cons entry later ih =>
    obtain ⟨key, value⟩ := entry
    simp [prettyEntries, ih]

end Json

end FileGraph
