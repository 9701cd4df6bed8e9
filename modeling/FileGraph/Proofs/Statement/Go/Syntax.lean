import FileGraph.Reference
import FileGraph.Statement.Go

/-! # Import declarations of Go as they are written

* `Entry`, `Item`: a target in quotation marks, perhaps with a name in front of it and a comment
  behind it, and the same on a line of its own.
* `Declaration`: one entry behind the word `import`, or the lines of a block.
* `readable`: the items of a block up to the first closing parenthesis in a comment.
* `written`, `reported`: the references of all items, and those of the readable ones.
-/

namespace FileGraph.Statement.Go

open Text

/-! ## Syntax -/

/-- Spaces and tabs. -/
abbrev Gap : Type :=
  { gap : List Char // gap.all isGap = true }

/-- Spaces and tabs, at least one of them. -/
abbrev Space : Type :=
  { gap : List Char // gap ≠ [] ∧ gap.all isGap = true }

/-- What may stand behind the last quotation mark of a line, such as a comment. -/
abbrev Tail : Type :=
  { tail : List Char // '"' ∉ tail ∧ '\n' ∉ tail }

/-- Whether a character may stand in the name that a package is given. -/
def isNameChar (c : Char) : Bool :=
  isWordChar c || c == '.'

/-- The name that a package is given: an identifier, `_` or `.`. -/
structure Name where
  text : List Char
  filled : text ≠ []
  letters : text.all isNameChar = true
  free : text ≠ importWord

/-- Empty lines, and what stands in front of the next line. -/
structure Margin where
  lines : List Gap
  indent : Gap

namespace Margin

def above (margin : Margin) : List Char :=
  margin.lines.flatMap fun line => line.1 ++ ['\n']

def text (margin : Margin) : List Char :=
  margin.above ++ margin.indent.1

end Margin

/-- A target in quotation marks, perhaps with a name, and what stands behind it on its line. -/
structure Entry where
  name : Option (Name × Space)
  target : List Char
  tail : Tail
  filled : target ≠ []
  plain : '"' ∉ target ∧ ')' ∉ target ∧ '\n' ∉ target

namespace Entry

/-- What stands in front of the quotation marks. -/
def lead (entry : Entry) : List Char :=
  entry.name.toList.flatMap fun (name, space) => name.text ++ space.1

def quoted (entry : Entry) : List Char :=
  '"' :: (entry.target ++ ['"'])

def text (entry : Entry) : List Char :=
  entry.lead ++ (entry.quoted ++ entry.tail.1)

end Entry

/-- An entry on a line of its own. -/
structure Item where
  margin : Margin
  entry : Entry

namespace Item

/-- What stands in front of the quotation marks. -/
def lead (item : Item) : List Char :=
  item.margin.text ++ item.entry.lead

def text (item : Item) : List Char :=
  item.margin.text ++ (item.entry.text ++ ['\n'])

end Item

inductive Declaration where
  /-- `import "target"`, perhaps with a name. -/
  | single (margin : Margin) (space : Space) (entry : Entry)
  /-- `import ( … )`. -/
  | block (margin : Margin) (gap after : Gap) (items : List Item) (last : Margin) (tail : Tail)

namespace Declaration

/-- What stands in front of the first item. -/
def opening : Declaration → List Char
  | single margin space _ => margin.text ++ (importWord ++ space.1)
  | block margin gap after _ _ _ =>
    margin.text ++ (importWord ++ (gap.1 ++ '(' :: (after.1 ++ ['\n'])))

def items : Declaration → List Item
  | single _ _ entry => [⟨⟨[], ⟨[], rfl⟩⟩, entry⟩]
  | block _ _ _ items _ _ => items

/-- What stands behind the last item. -/
def closing : Declaration → List Char
  | single _ _ _ => []
  | block _ _ _ _ last tail => last.text ++ ')' :: (tail.1 ++ ['\n'])

def text (declaration : Declaration) : List Char :=
  declaration.opening ++ (declaration.items.flatMap Item.text ++ declaration.closing)

end Declaration

/-- What stands behind the word `package` on its line. -/
abbrev PackageName : Type :=
  { name : List Char // '\n' ∉ name }

def packageWord : List Char := ['p', 'a', 'c', 'k', 'a', 'g', 'e']

/-- A source text: its package line, and declarations. -/
def sourceText (package : PackageName) (declarations : List Declaration) : String :=
  String.ofList (packageWord ++ package.1 ++ '\n' :: declarations.flatMap Declaration.text)

/-! ## References -/

/-- A block is read up to the first closing parenthesis, which may stand in a comment: the items up
to the first one with such a comment. -/
def readable : List Item → List Item
  | [] => []
  | item :: later => item :: if ')' ∈ item.entry.tail.1 then [] else readable later

/-- The references that items write, the first of them beginning on a line of a given number: one
for each, on the line of its target. -/
def itemReferences : (number : Nat) → List Item → List Reference
  | _, [] => []
  | number, item :: later =>
    ⟨String.ofList item.entry.target, .import, number + item.lead.count '\n'⟩ ::
      itemReferences (number + item.text.count '\n') later

/-- The references of those items of the declarations that are chosen. -/
def referencesOf (choose : List Item → List Item) :
    (number : Nat) → List Declaration → List Reference
  | _, [] => []
  | number, declaration :: later =>
    itemReferences (number + declaration.opening.count '\n') (choose declaration.items) ++
      referencesOf choose (number + declaration.text.count '\n') later

/-- The references that declarations write, the first of them beginning on a line of a given number:
one for each item, in their order, on the line of its target. -/
def written : (number : Nat) → List Declaration → List Reference :=
  referencesOf id

def reported : (number : Nat) → List Declaration → List Reference :=
  referencesOf readable

/-! ## Readable items -/

theorem prefix_readable (items : List Item) : readable items <+: items := by
  induction items with
  | nil => exact List.prefix_rfl
  | cons item later ih =>
    rw [readable, List.cons_prefix_cons]
    refine ⟨rfl, ?_⟩
    split
    · exact List.nil_prefix
    · exact ih

/-- All items of a block are readable where no comment but the last has a closing parenthesis. -/
theorem readable_eq_self_iff {items : List Item} :
    readable items = items ↔ ∀ item ∈ items.dropLast, ')' ∉ item.entry.tail.1 := by
  induction items with
  | nil => simp [readable]
  | cons item later ih =>
    rw [readable, List.cons.injEq, eq_self, true_and]
    cases later with
    | nil => simp [readable]
    | cons next later =>
      rw [List.dropLast_cons_cons, List.forall_mem_cons, ← ih]
      by_cases parenthesis : ')' ∈ item.entry.tail.1
      · simp [parenthesis]
      · simp [parenthesis]

theorem length_itemReferences (number : Nat) (items : List Item) :
    (itemReferences number items).length = items.length := by
  induction items generalizing number with
  | nil => rfl
  | cons item later ih => rw [itemReferences, List.length_cons, ih, List.length_cons]

theorem length_reported_le (number : Nat) (declarations : List Declaration) :
    (reported number declarations).length ≤ (written number declarations).length := by
  induction declarations generalizing number with
  | nil => exact Nat.le_refl _
  | cons declaration later ih =>
    have here := (prefix_readable declaration.items).length_le
    have behind := ih (number + declaration.text.count '\n')
    simp only [reported, written, referencesOf, List.length_append, length_itemReferences, id] at *
    omega

theorem reported_eq_written_iff {number : Nat} {declarations : List Declaration} :
    reported number declarations = written number declarations ↔
      ∀ declaration ∈ declarations, readable declaration.items = declaration.items := by
  induction declarations generalizing number with
  | nil => simp [reported, written, referencesOf]
  | cons declaration later ih =>
    rw [List.forall_mem_cons]
    constructor
    · intro same
      have lengths := congrArg List.length same
      have here := (prefix_readable declaration.items).length_le
      have behind := length_reported_le (number + declaration.text.count '\n') later
      simp only [reported, written, referencesOf, List.length_append, length_itemReferences, id]
        at lengths behind
      have all : readable declaration.items = declaration.items :=
        (prefix_readable declaration.items).eq_of_length (by omega)
      simp only [reported, written, referencesOf, all, id] at same
      exact ⟨all, ih.1 (List.append_cancel_left same)⟩
    · rintro ⟨all, others⟩
      have rest : reported (number + declaration.text.count '\n') later =
          written (number + declaration.text.count '\n') later := ih.2 others
      simp only [reported, written, referencesOf, all, id] at rest ⊢
      rw [rest]

/-! ## A block with a parenthesis in a comment -/

def tabbed : Margin :=
  ⟨[], ⟨['\t'], by decide⟩⟩

/-- Two entries, the first of them with a comment that closes the block. -/
def commentedBlock : Declaration :=
  .block ⟨[⟨[], rfl⟩], ⟨[], rfl⟩⟩ ⟨[' '], by decide⟩ ⟨[], rfl⟩
    [⟨tabbed, none, "fmt".toList, ⟨" // Println()".toList, by decide⟩, by decide, by decide⟩,
      ⟨tabbed, none, "./util".toList, ⟨[], by decide⟩, by decide, by decide⟩]
    ⟨[], ⟨[], rfl⟩⟩ ⟨[], by decide⟩

def mainPackage : PackageName :=
  ⟨" main".toList, by decide⟩

example : sourceText mainPackage [commentedBlock] =
    "package main\n\nimport (\n\t\"fmt\" // Println()\n\t\"./util\"\n)\n" := by
  decide

end FileGraph.Statement.Go
