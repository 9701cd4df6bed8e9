import FileGraph.FileTree
import FileGraph.Json.Reader

/-! # Path aliases

A project may give short names to its directories. Its alias document,

    { "compilerOptions": { "baseUrl": "web", "paths": { "@app/*": ["app/*"] } } }

says that a target `@app/x` stands for `web/app/x`.

* `AliasTable`: the aliases in the order of the document.
* `AliasTable.rewrite?`: what a target stands for; the first alias that matches decides.
* `AliasTable.parse`: reads an alias document.
* `AliasTable.load`: reads the one in a project.
-/

namespace FileGraph

/-- One alias: targets under `stem` stand for paths under `folder`. -/
structure Alias where
  stem : String
  folder : String
  deriving DecidableEq, Repr

/-- Aliases, the first of which that matches counts. -/
abbrev AliasTable := List Alias

namespace Alias

/-- What is left of a target behind the stem of an alias that matches it: nothing, or a further
segment. A stem that ends in a slash matches whatever follows. -/
def rest? (a : Alias) (target : List Char) : Option (List Char) :=
  match Text.after? a.stem.toList target with
  | none => none
  | some rest =>
    if rest = [] ∨ rest.head? = some '/' ∨ a.stem.toList.getLast? = some '/' then some rest
    else none

/-- A path under the folder of an alias; slashes in front of it do not count. -/
def under (a : Alias) (rest : List Char) : String :=
  match rest.dropWhile (· == '/') with
  | [] => a.folder
  | rest => a.folder ++ "/" ++ String.ofList rest

end Alias

namespace AliasTable

/-- What a target stands for, read from the root of the project. -/
def rewrite? (table : AliasTable) (target : String) : Option String :=
  table.findSome? fun a => (a.rest? target.toList).map a.under

/-! ## Alias documents -/

def trimSlashes (text : List Char) : List Char :=
  (text.reverse.dropWhile (· == '/')).reverse

def trimStar (text : List Char) : List Char :=
  match text.reverse with
  | '*' :: '/' :: rest => rest.reverse
  | _ => text

/-- How deep the values of an alias document may be nested inside `paths`. -/
def valueDepth : Nat := 124

def documentReader : Json.Reader Json.Datum :=
  Json.recordReader [
    ⟨"compilerOptions", Json.optionalReader (Json.recordReader [
      ⟨"baseUrl", Json.optionalReader Json.textReader, true⟩,
      ⟨"paths", Json.optionalReader (Json.mappingReader valueDepth), true⟩]), true⟩]

def firstText? : Json → Option String
  | .array (.string text :: _) => some text
  | _ => none

/-- The alias that an entry of `paths` declares. The first of its targets counts; an entry without
one, and one for the empty stem, declares nothing. -/
def declared? (base : Option String) (entry : String × Json) : Option Alias := do
  let target ← firstText? entry.2
  let stem := trimStar entry.1.toList
  let folder := String.ofList (Text.trimHere (trimStar target.toList))
  if stem = [] then none
  else
    match base.map fun base => trimSlashes (Text.trimHere base.toList) with
    | none | some [] | some ['.'] => some ⟨String.ofList stem, folder⟩
    | some base => some ⟨String.ofList stem, String.ofList base ++ "/" ++ folder⟩

/-- The aliases that an alias document declares. -/
def ofDatum : Json.Datum → AliasTable
  | .record [.record [base, .mapping entries]] =>
    let base :=
      match base with
      | .text base => some base
      | _ => none
    entries.filterMap (declared? base)
  | _ => []

def parse (text : String) : Except Json.Problem AliasTable :=
  (Json.document documentReader text).map ofDatum

/-- Why the alias table of a project cannot be had. -/
inductive LoadError where
  | unreadable (fault : Fault)
  | notAliases (problem : Json.Problem)
  deriving DecidableEq, Repr

/-- The alias table in the file `name` of a project; it is empty where there is no such file. -/
def load (tree : FileTree) (root : Path) (name : String) : Except LoadError AliasTable :=
  let path := root.join name
  if tree.isFile path then
    match tree.readText path with
    | .error fault => .error (.unreadable fault)
    | .ok text =>
      match parse text with
      | .error problem => .error (.notAliases problem)
      | .ok table => .ok table
  else .ok []

end AliasTable

end FileGraph
