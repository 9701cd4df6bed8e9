import FileGraph.Proofs.Statement.Recovery

/-! # Import lines of scripts

* `IsStem`: names made of letters, digits, `_` and `-`.
* `importLine`, `moduleText`: a line that imports a neighbouring module, and a text of such lines.
* `importDeclaration`, `exists_declarations`: the lines are declarations.
* `references_moduleText`: the references of such a text are the imports, line by line.
-/

namespace FileGraph

def isStemChar (c : Char) : Bool :=
  c.isAlphanum || c == '_' || c == '-'

/-- A name made of letters, digits, `_` and `-`. -/
structure IsStem (stem : String) : Prop where
  filled : stem.toList ≠ []
  plain : stem.toList.all isStemChar = true

/-- A line that imports the module under a name in the same folder. -/
def importLine (stem : String) : String :=
  "import \x7b x \x7d from './" ++ stem ++ "';\n"

def moduleText (imports : List String) : String :=
  String.join (imports.map importLine)

namespace IsStem

variable {stem : String}

theorem not_mem (isStem : IsStem stem) {c : Char} (foreign : isStemChar c = false) :
    c ∉ stem.toList := by
  intro member
  rw [List.all_eq_true.1 isStem.plain c member] at foreign
  cases foreign

end IsStem

namespace Statement.Script

open Text

theorem target_plain {stem : String} (isStem : IsStem stem) :
    ∀ c ∈ ("./" ++ stem).toList, isQuote c = false ∧ c ≠ '\n' := by
  intro c member
  have apart : ∀ d, isStemChar d = false → d ∉ "./".toList → c ≠ d := by
    rintro d foreign noDot rfl
    rw [String.toList_append] at member
    cases List.mem_append.1 member with
    | inl dots => exact noDot dots
    | inr own => exact isStem.not_mem foreign own
  refine ⟨?_, apart '\n' (by decide) (by decide)⟩
  rw [isQuote, Bool.or_eq_false_iff, beq_eq_false_iff_ne, beq_eq_false_iff_ne]
  exact ⟨apart '\'' (by decide) (by decide), apart '"' (by decide) (by decide)⟩

theorem count_importLine {stem : String} (isStem : IsStem stem) :
    (importLine stem).toList.count '\n' = 1 := by
  have lead : "import \x7b x \x7d from './".toList.count '\n' = 0 := by decide
  have trail : "';\n".toList.count '\n' = 1 := by decide
  have own : stem.toList.count '\n' = 0 := List.count_eq_zero.2 (isStem.not_mem (by decide))
  unfold importLine
  rw [String.toList_append, String.toList_append, List.count_append, List.count_append, lead, own,
    trail]

/-- What stands in front of the path of an import line. -/
def importOpening : Opening :=
  .statement false (.named ⟨⟨[' '], by decide⟩, ⟨['x'], by decide, by decide, by decide⟩,
    ⟨[' '], by decide⟩⟩ [] none)

/-- An import line is a declaration. -/
def importDeclaration (stem : String) (isStem : IsStem stem) : Declaration where
  opening := importOpening
  mark := '\''
  path := ("./" ++ stem).toList
  quotes := by decide
  filled := by simp
  inside := by simpa using target_plain isStem

section

variable {stem : String} (isStem : IsStem stem)

theorem text_importDeclaration :
    (importDeclaration stem isStem).text = (importLine stem).toList := by
  have lead : "import \x7b x \x7d from './".toList = importOpening.text ++ '\'' :: "./".toList := by
    decide
  have trail : "';\n".toList = '\'' :: (importOpening.closing ++ [';', '\n']) := by decide
  unfold importLine
  simp only [String.toList_append, lead, trail, Declaration.text, importDeclaration, List.append_assoc,
    List.cons_append]

theorem written_importDeclaration (number : Nat) (later : List Declaration) :
    written number (importDeclaration stem isStem :: later) =
      ⟨"./" ++ stem, .import, number⟩ :: written (number + 1) later := by
  have feeds : importOpening.text.count '\n' = 0 := by decide
  rw [written, text_importDeclaration, count_importLine isStem]
  simp only [importDeclaration, feeds, Nat.add_zero, String.ofList_toList]
  rfl

end

theorem exists_declarations {imports : List String} (stems : ∀ s ∈ imports, IsStem s) :
    ∃ declarations : List Declaration,
      (∀ declaration ∈ declarations, declaration.opening.Unambiguous) ∧
      (imports.flatMap fun s => (importLine s).toList) = declarations.flatMap Declaration.text ∧
      ∀ number, written number declarations =
        (imports.zipIdx number).map fun spot => ⟨"./" ++ spot.1, .import, spot.2⟩ := by
  induction imports with
  | nil => exact ⟨[], by simp, rfl, fun number => rfl⟩
  | cons s later ih =>
    rw [List.forall_mem_cons] at stems
    obtain ⟨declarations, unambiguous, text, all⟩ := ih stems.2
    have own : importOpening.Unambiguous := by decide
    refine ⟨importDeclaration s stems.1 :: declarations,
      List.forall_mem_cons.2 ⟨own, unambiguous⟩, ?_, fun number => ?_⟩
    · rw [List.flatMap_cons, List.flatMap_cons, text, text_importDeclaration]
    · rw [written_importDeclaration, all, List.zipIdx_cons, List.map_cons]

end Statement.Script

open Statement.Script in
theorem references_moduleText {imports : List String} (stems : ∀ s ∈ imports, IsStem s) :
    Extract.references .typeScript (moduleText imports) =
      (imports.zipIdx 1).map fun spot => ⟨"./" ++ spot.1, .import, spot.2⟩ := by
  obtain ⟨declarations, unambiguous, text, all⟩ := exists_declarations stems
  rw [Extract.references, moduleText, String.toList_join, List.flatMap_map, text,
    found_declarations (.inl rfl) unambiguous, merge_declarations, all]

end FileGraph
