import FileGraph.Graph
import FileGraph.Proofs.Path.Join
import FileGraph.Proofs.Statement.Stands
import Mathlib.Data.List.DropRight
import Mathlib.Data.List.Forall2

/-! # Order, place and line of references

* `Text.lastLine`, `Text.getElem?_splitOn_append`: the line on which one stands behind a part of a
  text.
* `Extract.pairwise_ordered`: what is found in a text, brought into the order of the text.
* `Extract.references_in_place`: the targets of the references stand in the text in their order, each
  on its line.
-/

namespace FileGraph

namespace Text

variable {sep : Char}

theorem head?_splitOn (sep : Char) (text : List Char) :
    (splitOn sep text)[0]? = some (text.takeWhile (· != sep)) := by
  induction text with
  | nil => rfl
  | cons c rest ih =>
    rw [splitOn]
    by_cases same : c = sep
    · simp [same]
    · cases cut : splitOn sep rest with
      | nil => exact absurd cut (splitOn_ne_nil sep rest)
      | cons piece later =>
        rw [cut, List.getElem?_cons_zero, Option.some.injEq] at ih
        simp [same, ih]

def lastLine (text : List Char) : List Char :=
  text.rtakeWhile (· != '\n')

theorem not_mem_lastLine (text : List Char) : '\n' ∉ lastLine text := by
  intro member
  simpa using List.mem_rtakeWhile_imp member

theorem lastLine_append {more : List Char} (feedless : '\n' ∉ more) (text : List Char) :
    lastLine (text ++ more) = lastLine text ++ more := by
  have all : ∀ c ∈ more.reverse, (c != '\n') = true := by
    intro c member
    simp only [bne_iff_ne]
    rintro rfl
    exact feedless (List.mem_reverse.1 member)
  simp [lastLine, List.rtakeWhile, List.takeWhile_append_of_pos all]

theorem getElem?_splitOn_append (lead rest : List Char) :
    (splitOn '\n' (lead ++ rest))[lead.count '\n']? =
      some (lastLine lead ++ rest.takeWhile (· != '\n')) := by
  have inside : ∀ c ∈ lastLine lead, (c != '\n') = true :=
    fun c member => bne_iff_ne.2 fun same => not_mem_lastLine lead (same ▸ member)
  have own : (lastLine lead).count '\n' = 0 := List.count_eq_zero.2 (not_mem_lastLine lead)
  have shape : lead.rdropWhile (· != '\n') ++ lastLine lead = lead :=
    List.rdropWhile_append_rtakeWhile
  have first : (splitOn '\n' (lastLine lead ++ rest))[0]? =
      some (lastLine lead ++ rest.takeWhile (· != '\n')) := by
    rw [head?_splitOn, List.takeWhile_append_of_pos inside]
  obtain none | ⟨front, last, ends⟩ := List.eq_nil_or_concat (lead.rdropWhile (· != '\n'))
  · rw [none, List.nil_append] at shape
    rw [shape] at own first ⊢
    rw [own, first]
  · -- The part in front of the current line ends in a line feed.
    obtain rfl : last = '\n' := by
      have feed := List.rdropWhile_last_not (· != '\n') lead (by simp [ends])
      simpa [ends] using feed
    rw [ends, List.concat_eq_append] at shape
    have count : lead.count '\n' = (splitOn '\n' front).length := by
      rw [← shape, length_splitOn]
      simp [own]
    rw [count]
    conv_lhs => rw [← shape, List.append_assoc, List.append_assoc, List.singleton_append]
    rw [splitOn_append_cons, List.getElem?_append_right (Nat.le_refl _), Nat.sub_self, first]

end Text

namespace Extract

open Statement

variable {language : Language} {text : List Char} {spot : Place × List Char × Kind}

theorem mem_spots {forms : List (List (Place × List Char) × Kind)} :
    spot ∈ spots forms ↔ ∃ form ∈ forms, (spot.1, spot.2.1) ∈ form.1 ∧ form.2 = spot.2.2 := by
  obtain ⟨place, target, kind⟩ := spot
  simp only [spots, List.mem_flatMap, List.mem_map, Prod.mk.injEq]
  constructor
  · rintro ⟨form, member, ⟨_, _⟩, inside, rfl, rfl, rfl⟩
    exact ⟨form, member, inside, rfl⟩
  · rintro ⟨form, member, inside, rfl⟩
    exact ⟨form, member, (place, target), inside, rfl, rfl, rfl⟩

/-- What is found in a text, in the order of the text. -/
def ordered (language : Language) (text : List Char) : List (Place × List Char × Kind) :=
  (spots (found language text)).mergeSort fun a b => a.1.offset ≤ b.1.offset

theorem references_eq_map (language : Language) (content : String) :
    references language content = (ordered language content.toList).map toReference :=
  rfl

theorem pairwise_ordered (language : Language) (text : List Char) :
    (ordered language text).Pairwise fun a b => a.1.offset ≤ b.1.offset :=
  pairwise_mergeSort_offset _

theorem located_of_mem_ordered (member : spot ∈ ordered language text) :
    Located text (spot.1, spot.2.1) := by
  obtain ⟨form, known, inside, -⟩ := mem_spots.1 (List.mem_mergeSort.1 member)
  exact located_of_mem_found language text form known _ inside

end Extract

namespace Statement

variable {text : List Char} {spot : Place × List Char}

theorem Located.exists_lead (located : Located text spot) :
    ∃ lead trail, text = lead ++ spot.2 ++ trail ∧ spot.1.offset = lead.length ∧
      spot.1.line = lead.count '\n' + 1 := by
  obtain ⟨lead, trail, shape, place⟩ := located.stands
  refine ⟨lead, trail, shape, ?_, ?_⟩
  · rw [place, Place.offset_advance]
    exact Nat.zero_add _
  · rw [place, Place.line_advance]
    exact Nat.add_comm _ _

theorem Located.line_eq (located : Located text spot) :
    spot.1.line = (text.take spot.1.offset).count '\n' + 1 := by
  obtain ⟨lead, trail, shape, offset, line⟩ := located.exists_lead
  rw [line, offset, shape, List.append_assoc, List.take_left]

theorem Located.getElem?_splitOn (located : Located text spot) :
    ∃ front back, (Text.splitOn '\n' text)[spot.1.line - 1]? = some (front ++ spot.2 ++ back) := by
  obtain ⟨lead, trail, shape, -, line⟩ := located.exists_lead
  have inside : ∀ c ∈ spot.2, (c != '\n') = true :=
    fun c member => bne_iff_ne.2 fun same => located.plain.oneLine (same ▸ member)
  refine ⟨Text.lastLine lead, trail.takeWhile (· != '\n'), ?_⟩
  rw [line, Nat.add_sub_cancel, shape, List.append_assoc, Text.getElem?_splitOn_append,
    List.takeWhile_append_of_pos inside, List.append_assoc]

end Statement

/-- The target of a reference stands behind the first `offset` bytes of a text, and the line feeds
among them tell its line. -/
structure Reference.StandsAt (content : String) (reference : Reference) (offset : Nat) : Prop where
  filled : reference.target ≠ ""
  oneLine : '\n' ∉ reference.target.toList
  stands : ∃ lead trail : String, content = lead ++ reference.target ++ trail ∧
    offset = lead.utf8ByteSize ∧ reference.line = lead.toList.count '\n' + 1

namespace Extract

open Statement

def byteOffset (text : List Char) (place : Place) : Nat :=
  (String.ofList (text.take place.offset)).utf8ByteSize

theorem byteOffset_le {text : List Char} {a b : Place} (before : a.offset ≤ b.offset) :
    byteOffset text a ≤ byteOffset text b := by
  obtain ⟨more, shape⟩ := (List.take_prefix_take_left before : text.take a.offset <+: _)
  rw [byteOffset, byteOffset, ← shape, String.ofList_append, String.utf8ByteSize_append]
  exact Nat.le_add_right _ _

theorem standsAt_of_located {content : String} {spot : Place × List Char × Kind}
    (located : Located content.toList (spot.1, spot.2.1)) :
    Reference.StandsAt content (toReference spot) (byteOffset content.toList spot.1) := by
  obtain ⟨lead, trail, shape, offset, line⟩ := located.exists_lead
  refine ⟨?_, ?_, String.ofList lead, String.ofList trail, ?_, ?_, ?_⟩
  · simpa using located.plain.filled
  · simpa using located.plain.oneLine
  · rw [target_toReference, ← String.ofList_append, ← String.ofList_append, ← shape,
      String.ofList_toList]
  · rw [byteOffset, shape, List.append_assoc, offset, List.take_left]
  · rw [line_toReference, line, String.toList_ofList]

/-- The targets of the references of a file stand in its text in their order, each on its line. -/
theorem references_in_place (file : SourceFile) :
    (∃ offsets : List Nat, offsets.Pairwise (· ≤ ·) ∧
      List.Forall₂ (Reference.StandsAt file.content) (references file.language file.content)
        offsets) ∧
    (references file.language file.content).Pairwise (fun a b => a.line ≤ b.line) ∧
    ∀ reference ∈ references file.language file.content,
      1 ≤ reference.line ∧ reference.line ≤ (Node.ofSource file).lines ∧
      ∃ line, (Text.splitOn '\n' file.content.toList)[reference.line - 1]? = some line ∧
        reference.target.toList <:+: line := by
  have ascending := pairwise_ordered file.language file.content.toList
  have located : ∀ spot ∈ ordered file.language file.content.toList,
      Located file.content.toList (spot.1, spot.2.1) := fun spot => located_of_mem_ordered
  rw [references_eq_map]
  refine ⟨⟨(ordered file.language file.content.toList).map fun spot =>
    byteOffset file.content.toList spot.1, ?_, ?_⟩, ?_, ?_⟩
  · exact List.pairwise_map.2 (ascending.imp byteOffset_le)
  · rw [List.forall₂_map_left_iff, List.forall₂_map_right_iff, List.forall₂_same]
    exact fun spot member => standsAt_of_located (located spot member)
  · -- Later places have no fewer line feeds in front of them.
    refine List.pairwise_map.2 (ascending.imp_of_mem fun {a b} first second before => ?_)
    rw [line_toReference, line_toReference, (located a first).line_eq, (located b second).line_eq]
    exact Nat.succ_le_succ ((List.take_prefix_take_left before).sublist.count_le _)
  · intro reference member
    obtain ⟨spot, known, rfl⟩ := List.mem_map.1 member
    obtain ⟨front, back, line⟩ := (located spot known).getElem?_splitOn
    have bound := (List.getElem?_eq_some_iff.1 line).1
    have positive := (located spot known).line_eq
    rw [line_toReference, target_toReference]
    refine ⟨by dsimp only at positive ⊢; omega, ?_, _, line, ?_⟩
    · dsimp only [Node.ofSource] at positive bound ⊢
      omega
    · rw [String.toList_ofList]
      exact ⟨front, back, rfl⟩

/-- Behind a carriage return and a target of two bytes, inside a block. -/
theorem references_in_place_block :
    let file : SourceFile :=
      ⟨⟨"/p/a.go"⟩, "a.go", "import \"é\"\r\nimport (\n\t\"os\"\n)\n", .go⟩
    let reference : Reference := ⟨"os", .import, 3⟩
    reference ∈ references file.language file.content ∧
      reference.line ≤ (Node.ofSource file).lines ∧
      ∃ line, (Text.splitOn '\n' file.content.toList)[2]? = some line ∧ "os".toList <:+: line := by
  intro file reference
  have forms : found .go file.content.toList =
      [([(⟨some '"', 8, 1⟩, ['é'])], .import), ([(⟨some '"', 23, 3⟩, ['o', 's'])], .import)] := by
    decide
  have all : references file.language file.content = [⟨"é", .import, 1⟩, ⟨"os", .import, 3⟩] := by
    rw [references, forms, merge_of_pairwise (by decide)]
    decide
  have member : reference ∈ references file.language file.content := by
    rw [all]
    exact List.mem_cons_of_mem _ List.mem_cons_self
  exact ⟨member, ((references_in_place file).2.2 reference member).2⟩

end Extract

end FileGraph
