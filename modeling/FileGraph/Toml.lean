import FileGraph.Text.Keyed

/-! # TOML documents

* `Toml`: a value of a TOML document.
* `Toml.TableForm`: how a table came to be, on which depends what may still be added to it.
* `Toml.addPair`, `Toml.openTable`, `Toml.openElement`: what the lines of a document do to the
  tables above them.
-/

namespace FileGraph

/-- How a table came to be. -/
inductive Toml.TableForm where
  /-- By its own header; the table of the whole document too. -/
  | headed
  /-- By the header of a table inside it. -/
  | implied
  /-- By a dotted key. -/
  | dotted
  /-- In braces; it is complete. -/
  | closed
  deriving DecidableEq, Repr

/-- A value of a TOML document. Numbers and moments of time are kept as they are written. -/
inductive Toml where
  | string (s : String)
  | flag (b : Bool)
  | integer (literal : String)
  | float (literal : String)
  | moment (literal : String)
  | array (items : List Toml)
  | table (form : Toml.TableForm) (entries : List (String × Toml))
  /-- Tables with a common header in double brackets. -/
  | elements (tables : List Toml)
  deriving Inhabited

namespace Toml

/-- The keys of a table and their values. -/
abbrev Entries := List (String × Toml)

/-- Whether a table may be entered by a dotted key. -/
def TableForm.isOpen : TableForm → Bool
  | .implied | .dotted => true
  | .headed | .closed => false

/-- Whether a table may be entered by a header. -/
def TableForm.isReachable : TableForm → Bool
  | .closed => false
  | _ => true

/-- Changes the table that a row of keys leads to. A missing table on the way is made, in the form
`made`; a table that `enter` does not let in stops the way. Of tables with a common header, the last
is entered. -/
def within (enter : TableForm → Bool) (made : TableForm)
    (change : TableForm → Entries → Option Entries) :
    List String → TableForm → Entries → Option Entries
  | [], form, entries => change form entries
  | key :: path, _, entries =>
    match entries.lookup key with
    | none => do
      let inner ← within enter made change path made []
      return Text.Keyed.put key (table made inner) entries
    | some (table form old) =>
      if enter form then do
        let inner ← within enter made change path form old
        return Text.Keyed.put key (table form inner) entries
      else none
    | some (elements tables) =>
      match tables.getLast? with
      | some (table form old) => do
        let inner ← within enter made change path form old
        return Text.Keyed.put key (elements (tables.dropLast ++ [table form inner])) entries
      | _ => none
    | some _ => none

/-- A table with a further key. A dotted key, whose beginning is `path`, may only add to tables that
dotted keys made, and no key may stand twice. -/
def addPair (path : List String) (key : String) (value : Toml) (form : TableForm)
    (entries : Entries) : Option Entries :=
  within TableForm.isOpen .dotted
    (fun form entries =>
      -- A dotted key ends in a table that dotted keys made, a single key never does.
      if (form == .dotted) == path.isEmpty then none
      else if (entries.lookup key).isSome then none
      else some (entries ++ [(key, value)]))
    path form entries

/-- A document with a table headed by `path` and `key`. Only a table that was implied so far may
stand there. -/
def openTable (path : List String) (key : String) (entries : Entries) : Option Entries :=
  within TableForm.isReachable .implied
    (fun _ entries =>
      match entries.lookup key with
      | none => some (entries ++ [(key, table .headed [])])
      | some (table .implied inner) => some (Text.Keyed.put key (table .headed inner) entries)
      | some _ => none)
    path .headed entries

/-- A document with a further table under the common header `path` and `key`. -/
def openElement (path : List String) (key : String) (entries : Entries) : Option Entries :=
  within TableForm.isReachable .implied
    (fun _ entries =>
      match entries.lookup key with
      | none => some (entries ++ [(key, elements [table .headed []])])
      | some (elements tables) =>
        some (Text.Keyed.put key (elements (tables ++ [table .headed []])) entries)
      | some _ => none)
    path .headed entries

/-- A document with a further key in the table that `current` leads to. -/
def addBelow (current path : List String) (key : String) (value : Toml) (entries : Entries) :
    Option Entries :=
  within (fun _ => true) .implied (addPair path key value) current .headed entries

end Toml

end FileGraph
