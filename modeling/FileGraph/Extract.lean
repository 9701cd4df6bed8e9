import FileGraph.Language
import FileGraph.Reference
import FileGraph.Statement.Go
import FileGraph.Statement.Line
import FileGraph.Statement.Rust
import FileGraph.Statement.Script

/-! # The references of a text

* `spots`, `merge`: what several forms of statement find, and the same in the order of the text.
* `found`: what each form of statement of a language finds in a text.
* `references`: the references of a text in a given language, in the order of the text.
-/

namespace FileGraph.Extract

open Statement

/-- What several forms of statement found in one text, each target with the kind of its statement. -/
def spots (found : List (List (Place × List Char) × Kind)) : List (Place × List Char × Kind) :=
  found.flatMap fun (targets, kind) => targets.map fun (place, target) => (place, target, kind)

def toReference (spot : Place × List Char × Kind) : Reference :=
  ⟨String.ofList spot.2.1, spot.2.2, spot.1.line⟩

@[simp] theorem target_toReference (spot : Place × List Char × Kind) :
    (toReference spot).target = String.ofList spot.2.1 :=
  rfl

@[simp] theorem kind_toReference (spot : Place × List Char × Kind) :
    (toReference spot).kind = spot.2.2 :=
  rfl

@[simp] theorem line_toReference (spot : Place × List Char × Kind) :
    (toReference spot).line = spot.1.line :=
  rfl

/-- The targets that several forms of statement found in one text, by place; where two stand at the
same place, the earlier form comes first. -/
def merge (found : List (List (Place × List Char) × Kind)) : List Reference :=
  ((spots found).mergeSort fun a b => a.1.offset ≤ b.1.offset).map toReference

/-- What the forms of statement of a language find in a text, form by form. -/
def found (language : Language) (text : List Char) : List (List (Place × List Char) × Kind) :=
  match language with
  | .typeScript | .javaScript => [
      (search Script.importFrom 0 .start text, .import),
      (search Script.requireCall 0 .start text, .require),
      (search Script.importCall 0 .start text, .dynamicImport),
      (search Script.exportFrom 0 .start text, .export)]
  | .python => [
      (search Line.pythonImport 0 .start text, .import),
      (search Line.pythonFrom 0 .start text, .from)]
  | .java => [(search (Line.packageUse Line.importWord) 0 .start text, .import)]
  | .cSharp => [(search (Line.packageUse Line.usingWord) 0 .start text, .using)]
  | .c | .cpp => [(search Line.includeFile 0 .start text, .include)]
  | .go => [(search Go.single 0 .start text, .import), (Go.blockEntries text, .import)]
  | .rust => [(search Rust.useDeclaration 0 .start text, .import)]
  | .ruby | .php | .swift | .kotlin | .scala | .dart | .vue | .svelte | .unknown => []

/-- The references of a text, in the order in which their targets stand in it. -/
def references (language : Language) (content : String) : List Reference :=
  merge (found language content.toList)

end FileGraph.Extract
