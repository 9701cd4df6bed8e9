import FileGraph.Proofs.Statement.Lines

/-! # How often a target is written

Two forms of statement may cover one target, so that it is reported twice. In a script this happens
between a statement that begins with `export` and one of the three others, in Go between a line and
the block that holds it, and nowhere else.

* `Text.occurrences`: how often a text stands in a line.
* `Located.length_le_occurrences`: targets at different places are no more than that.
* `Script.apart_fromStatement_call`, `Script.apart_call`: statements with no target in common.
* `Extract.references_count_le`: how many references one occurrence has.
-/

namespace FileGraph

namespace Text

/-- The number of positions at which `target` stands in a line. -/
def occurrences (target line : List Char) : Nat :=
  (List.range (line.length + 1)).countP fun i => target.isPrefixOf (line.drop i)

theorem eq_of_lastLine {text lead lead' : List Char} (front : lead <+: text) (front' : lead' <+: text)
    (line : lead.count '\n' = lead'.count '\n')
    (column : (lastLine lead).length = (lastLine lead').length) : lead = lead' := by
  have same : ∀ {a b : List Char}, a <+: b → a.count '\n' = b.count '\n' →
      (lastLine a).length = (lastLine b).length → a = b := by
    rintro a - ⟨more, rfl⟩ line column
    have feedless : '\n' ∉ more := by
      rw [← List.count_eq_zero]
      simpa using line
    rw [lastLine_append feedless, List.length_append] at column
    have none : more = [] := List.length_eq_zero_iff.1 (by omega)
    rw [none, List.append_nil]
  cases List.prefix_or_prefix_of_prefix front front' with
  | inl before => exact same before line column
  | inr behind => exact (same behind line.symm column.symm).symm

end Text

namespace Statement

variable {text target : List Char}

def column (text : List Char) (spot : Place × List Char) : Nat :=
  (Text.lastLine (text.take spot.1.offset)).length

/-- The line of a text with a given number, counted from 1. -/
def lineAt (text : List Char) (number : Nat) : List Char :=
  (Text.splitOn '\n' text)[number - 1]?.getD []

theorem Located.isPrefixOf_column {spot : Place × List Char} (located : Located text spot) :
    column text spot ≤ (lineAt text spot.1.line).length ∧
      spot.2.isPrefixOf ((lineAt text spot.1.line).drop (column text spot)) = true := by
  obtain ⟨lead, trail, shape, offset, line⟩ := located.exists_lead
  have inside : ∀ c ∈ spot.2, (c != '\n') = true :=
    fun c member => bne_iff_ne.2 fun same => located.plain.oneLine (same ▸ member)
  have own : lineAt text spot.1.line =
      Text.lastLine lead ++ (spot.2 ++ trail.takeWhile (· != '\n')) := by
    rw [lineAt, line, Nat.add_sub_cancel, shape, List.append_assoc, Text.getElem?_splitOn_append,
      List.takeWhile_append_of_pos inside, Option.getD_some]
  have passed : column text spot = (Text.lastLine lead).length := by
    rw [column, offset, shape, List.append_assoc, List.take_left]
  rw [own, passed, List.drop_left]
  simp

/-- Targets with one text, on one line and at different places are no more than its occurrences. -/
theorem Located.length_le_occurrences {number : Nat} {spots : List (Place × List Char)}
    (located : ∀ spot ∈ spots, Located text spot)
    (same : ∀ spot ∈ spots, spot.2 = target ∧ spot.1.line = number)
    (apart : spots.Pairwise fun a b => a.1.offset ≠ b.1.offset) :
    spots.length ≤ Text.occurrences target (lineAt text number) := by
  -- On one line, different places are different columns.
  have columns : (spots.map (column text)).Nodup := by
    refine List.pairwise_map.2 (apart.imp_of_mem fun {a b} first second different equal => ?_)
    obtain ⟨lead, trail, shape, offset, line⟩ := (located a first).exists_lead
    obtain ⟨lead', trail', shape', offset', line'⟩ := (located b second).exists_lead
    have front : text.take a.1.offset = lead := by
      rw [offset, shape, List.append_assoc, List.take_left]
    have front' : text.take b.1.offset = lead' := by
      rw [offset', shape', List.append_assoc, List.take_left]
    rw [column, column, front, front'] at equal
    have whole := Text.eq_of_lastLine (front ▸ List.take_prefix _ _) (front' ▸ List.take_prefix _ _)
      (by rw [(same a first).2, (same b second).2.symm] at line; omega) equal
    rw [offset, offset', whole] at different
    exact different rfl
  have positions : spots.map (column text) ⊆
      (List.range ((lineAt text number).length + 1)).filter
        fun i => target.isPrefixOf ((lineAt text number).drop i) := by
    intro i member
    obtain ⟨spot, known, rfl⟩ := List.mem_map.1 member
    have fits := (located spot known).isPrefixOf_column
    rw [(same spot known).1, (same spot known).2] at fits
    exact List.mem_filter.2 ⟨List.mem_range.2 (Nat.lt_succ_of_le fits.1), fits.2⟩
  have bound := columns.length_le_of_subset positions
  rwa [List.length_map, ← List.countP_eq_length_filter] at bound

/-! ## Targets at different places -/

theorem take_of_mem_search {recognise : Recogniser} (exact : recognise.Exact)
    {spot : Place × List Char} (member : spot ∈ search recognise 0 .start text) :
    ∃ before inside hit front, recognise before inside = some hit ∧
      text.take spot.1.offset = front ++ hit.lead := by
  obtain ⟨before, inside, hit, front, trail, found, shape, place⟩ :=
    exists_hit_of_mem_search exact member
  refine ⟨before, inside, hit, front, found, ?_⟩
  rw [place, Place.offset_advance, shape, List.append_assoc _ _ trail, Place.start, Nat.zero_add,
    List.take_left]

/-- Two searches of one text that have no place in common. -/
def Apart (first second : List (Place × List Char)) : Prop :=
  ∀ a ∈ first, ∀ b ∈ second, a.1.offset ≠ b.1.offset

theorem pairwise_search_lt {recognise : Recogniser} (reading : recognise.Reading) (p : Place) :
    (search recognise 0 p text).Pairwise fun a b => a.1.offset < b.1.offset := by
  refine (pairwise_search_apart 0 p text).imp_of_mem fun {a b} first _ apart => ?_
  have filled := (plain_of_mem_search reading first).filled
  have positive := List.length_pos_iff.2 filled
  obtain before | empty := apart
  · omega
  · exact absurd empty filled

theorem Stands.inside {p : Place} {spot : Place × List Char} (stands : Stands text p spot) :
    p.offset ≤ spot.1.offset ∧ spot.1.offset + spot.2.length ≤ p.offset + text.length := by
  obtain ⟨lead, trail, rfl, place⟩ := stands
  rw [place, Place.offset_advance]
  simp only [List.length_append]
  omega

namespace Go

theorem pairwise_blockEntries (text : List Char) :
    (blockEntries text).Pairwise fun a b => a.1.offset < b.1.offset := by
  refine List.pairwise_flatMap.2 ⟨fun body _ => pairwise_search_lt reading_entry body.1, ?_⟩
  refine (pairwise_search_apart 0 .start text).imp fun {a b} apart first inFirst second inSecond => ?_
  have filled := (plain_of_mem_search reading_entry inFirst).filled
  have positive := List.length_pos_iff.2 filled
  -- The bodies of blocks do not overlap, and the entries lie inside them.
  have low := (stands_of_mem_search reading_entry.exact inFirst).inside
  have high := (stands_of_mem_search reading_entry.exact inSecond).inside
  obtain before | empty := apart
  · omega
  · rw [empty] at low
    simp only [List.length_nil] at low
    omega

end Go

namespace Script

open Text

variable {word word' : List Char} {spot : Place × List Char}

section

variable (unquoted : ∀ c ∈ word, isQuote c = false)

include unquoted

theorem take_of_mem_search_fromStatement (member : spot ∈ search (fromStatement word) 0 .start text) :
    ∃ front gap mark, (∀ c ∈ gap, isBlankChar c = true) ∧
      text.take spot.1.offset = front ++ 'm' :: gap ++ [mark] := by
  obtain ⟨before, inside, hit, front, found, shape⟩ :=
    take_of_mem_search (reading_fromStatement unquoted).exact member
  obtain ⟨-, own, mark, target, last, rest, ⟨blank, bindings, gap, -, blanks, rfl⟩, -, rfl⟩ :=
    fromStatement_eq_some unquoted found
  refine ⟨front ++ word ++ blank :: (bindings ++ ['f', 'r', 'o']), gap, mark, blanks, ?_⟩
  simp [shape, fromWord]

theorem take_of_mem_search_call (member : spot ∈ search (call word) 0 .start text) :
    ∃ front gap inner mark, (∀ c ∈ gap, isBlankChar c = true) ∧
      (∀ c ∈ inner, isBlankChar c = true) ∧
      text.take spot.1.offset = front ++ word ++ gap ++ '(' :: inner ++ [mark] := by
  obtain ⟨before, inside, hit, front, found, shape⟩ :=
    take_of_mem_search (reading_call unquoted).exact member
  obtain ⟨-, own, mark, target, last, rest, later, ⟨gap, inner, blanks, blanks', rfl⟩, -, rfl⟩ :=
    call_eq_some unquoted found
  exact ⟨front, gap, inner, mark, blanks, blanks', by simp [shape]⟩

theorem apart_fromStatement_call (unquoted' : ∀ c ∈ word', isQuote c = false) (text : List Char) :
    Apart (search (fromStatement word) 0 .start text) (search (call word') 0 .start text) := by
  intro a first b second same
  obtain ⟨front, gap, mark, blanks, shape⟩ := take_of_mem_search_fromStatement unquoted first
  obtain ⟨front', gap', inner', mark', -, blanks', shape'⟩ := take_of_mem_search_call unquoted' second
  rw [same, shape'] at shape
  have fronts := (List.append_inj' shape rfl).1
  -- The last character in front of the gap cannot be a parenthesis and the end of `from`.
  exact absurd (eq_of_blanks (by decide) (by decide) blanks' blanks fronts).2 (by decide)

end

/-- Calls of words with different last letters have no target in common. -/
theorem apart_call (word word' : List Char) {w w' : Char}
    (unquoted : ∀ c ∈ word ++ [w], isQuote c = false)
    (unquoted' : ∀ c ∈ word' ++ [w'], isQuote c = false) (solid : isBlankChar w = false)
    (solid' : isBlankChar w' = false) (different : w ≠ w') (text : List Char) :
    Apart (search (call (word ++ [w])) 0 .start text)
      (search (call (word' ++ [w'])) 0 .start text) := by
  intro a first b second same
  obtain ⟨front, gap, inner, mark, gapBlanks, blanks, shape⟩ := take_of_mem_search_call unquoted first
  obtain ⟨front', gap', inner', mark', gapBlanks', blanks', shape'⟩ :=
    take_of_mem_search_call unquoted' second
  rw [same, shape'] at shape
  have fronts := (List.append_inj' shape rfl).1
  have words := (eq_of_blanks (by decide) (by decide) blanks' blanks fronts).1
  have cut : ∀ front word gap : List Char, ∀ w,
      front ++ (word ++ [w]) ++ gap = (front ++ word) ++ w :: gap := by simp
  rw [cut, cut] at words
  exact different (eq_of_blanks solid' solid gapBlanks' gapBlanks words).2.symm

end Script

end Statement

namespace Extract

open Statement

/-- Whether a reference has a given target, on a line of a given number. -/
def writes (target : String) (number : Nat) (reference : Reference) : Bool :=
  reference.target == target && reference.line == number

variable {forms : List (List (Place × List Char) × Kind)} {text : List Char}

theorem countP_references (language : Language) (content : String) (pick : Reference → Bool) :
    (references language content).countP pick =
      (spots (found language content.toList)).countP (pick ∘ toReference) := by
  rw [references_eq_map, List.countP_map]
  exact (List.mergeSort_perm _ _).countP_eq _

/-- Forms whose findings stand at different places report no occurrence twice. -/
theorem countP_le_occurrences (located : ∀ form ∈ forms, ∀ spot ∈ form.1, Located text spot)
    (apart : (spots forms).Pairwise fun a b => a.1.offset ≠ b.1.offset) (target : String)
    (number : Nat) : (spots forms).countP (writes target number ∘ toReference) ≤
      Text.occurrences target.toList (lineAt text number) := by
  rw [List.countP_eq_length_filter, ← List.length_map (fun spot => (spot.1, spot.2.1))]
  apply Located.length_le_occurrences
  · intro spot member
    obtain ⟨finding, kept, rfl⟩ := List.mem_map.1 member
    obtain ⟨form, known, inside, -⟩ := mem_spots.1 (List.mem_of_mem_filter kept)
    exact located form known _ inside
  · intro spot member
    obtain ⟨finding, kept, rfl⟩ := List.mem_map.1 member
    have same := (List.mem_filter.1 kept).2
    simp only [writes, Function.comp_apply, target_toReference, line_toReference, Bool.and_eq_true,
      beq_iff_eq] at same
    obtain ⟨rfl, rfl⟩ := same
    simp
  · exact List.pairwise_map.2 (apart.sublist List.filter_sublist)

theorem spots_cons (form : List (Place × List Char) × Kind) :
    spots (form :: forms) = (form.1.map fun spot => (spot.1, spot.2, form.2)) ++ spots forms :=
  rfl

theorem pairwise_spots_cons {form : List (Place × List Char) × Kind}
    (own : form.1.Pairwise fun a b => a.1.offset < b.1.offset)
    (others : (spots forms).Pairwise fun a b => a.1.offset ≠ b.1.offset)
    (apart : ∀ other ∈ forms, Apart form.1 other.1) :
    (spots (form :: forms)).Pairwise fun a b => a.1.offset ≠ b.1.offset := by
  refine List.pairwise_append.2 ⟨List.pairwise_map.2 (own.imp Nat.ne_of_lt), others, ?_⟩
  intro a first b second
  obtain ⟨spot, here, rfl⟩ := List.mem_map.1 first
  obtain ⟨other, known, there, -⟩ := mem_spots.1 second
  exact apart other known spot here _ there

theorem pairwise_spots_singleton {targets : List (Place × List Char)}
    (own : targets.Pairwise fun a b => a.1.offset < b.1.offset) (kind : Kind) :
    (spots [(targets, kind)]).Pairwise fun a b => a.1.offset ≠ b.1.offset :=
  pairwise_spots_cons own .nil (by simp)

theorem spots_filter (pick : Kind → Bool) :
    (spots forms).filter (fun spot => pick spot.2.2) =
      spots (forms.filter fun form => pick form.2) := by
  induction forms with
  | nil => rfl
  | cons form forms ih =>
    rw [spots_cons, List.filter_append, ih, List.filter_map]
    by_cases picked : pick form.2 = true
    · simp [picked, spots_cons, Function.comp_def]
    · simp [picked, Function.comp_def]

/-- The languages in which two forms of statement may cover one target. -/
def doubleLanguages : List Language :=
  [.typeScript, .javaScript, .go]

variable {language : Language}

theorem pairwise_spots_found (single : language ∉ doubleLanguages) (text : List Char) :
    (spots (found language text)).Pairwise fun a b => a.1.offset ≠ b.1.offset := by
  cases language with
  | typeScript | javaScript | go => exact absurd (by decide) single
  | python | java | cSharp | c | cpp => exact pairwise_spots_of_line (by decide) text
  | rust =>
    exact pairwise_spots_singleton (pairwise_search_lt Rust.reading_useDeclaration .start) _
  | ruby | php | swift | kotlin | scala | dart | vue | svelte | unknown => exact .nil

/-- In a script the statements that begin with `export` have different targets, and so have all
others. -/
theorem pairwise_spots_script (script : language = .typeScript ∨ language = .javaScript)
    (text : List Char) :
    ((spots ((found language text).filter (·.2 == .export))).Pairwise
      fun a b => a.1.offset ≠ b.1.offset) ∧
    (spots ((found language text).filter (·.2 != .export))).Pairwise
      fun a b => a.1.offset ≠ b.1.offset := by
  have exported : (found language text).filter (·.2 == .export) =
      [(search Script.exportFrom 0 .start text, .export)] := by
    obtain rfl | rfl := script <;> rfl
  have others : (found language text).filter (·.2 != .export) = [
      (search Script.importFrom 0 .start text, .import),
      (search Script.requireCall 0 .start text, .require),
      (search Script.importCall 0 .start text, .dynamicImport)] := by
    obtain rfl | rfl := script <;> rfl
  rw [exported, others]
  -- The two words that are called end in different letters; no clause ends in a parenthesis.
  have calls :
      Apart (search Script.requireCall 0 .start text) (search Script.importCall 0 .start text) :=
    Script.apart_call ['r', 'e', 'q', 'u', 'i', 'r'] ['i', 'm', 'p', 'o', 'r']
      Script.requireWord_unquoted Script.importWord_unquoted (by decide) (by decide) (by decide) text
  have require :
      Apart (search Script.importFrom 0 .start text) (search Script.requireCall 0 .start text) :=
    Script.apart_fromStatement_call Script.importWord_unquoted Script.requireWord_unquoted text
  have dynamic :
      Apart (search Script.importFrom 0 .start text) (search Script.importCall 0 .start text) :=
    Script.apart_fromStatement_call Script.importWord_unquoted Script.importWord_unquoted text
  refine ⟨?_, ?_⟩
  · exact pairwise_spots_singleton
      (pairwise_search_lt Script.reading_exportFrom .start) _
  · refine pairwise_spots_cons (pairwise_search_lt Script.reading_importFrom .start)
      (pairwise_spots_cons (pairwise_search_lt Script.reading_requireCall .start)
        (pairwise_spots_singleton (pairwise_search_lt Script.reading_importCall .start) _)
        ?_) ?_
    · simpa using calls
    · simpa using ⟨require, dynamic⟩

theorem countP_kind (pick : Kind → Bool) (content target : String) (number : Nat) :
    ((references language content).filter fun reference => pick reference.kind).countP
        (writes target number) =
      (spots ((found language content.toList).filter fun form => pick form.2)).countP
        (writes target number ∘ toReference) := by
  rw [List.countP_filter, countP_references, ← spots_filter, List.countP_filter]
  rfl

/-- The number of references that one occurrence of a target may have. -/
def coverings (language : Language) : Nat :=
  if language ∈ doubleLanguages then 2 else 1

theorem countP_le_of_single (single : language ∉ doubleLanguages) (content target : String)
    (number : Nat) : (references language content).countP (writes target number) ≤
      Text.occurrences target.toList (lineAt content.toList number) := by
  rw [countP_references]
  exact countP_le_occurrences (located_of_mem_found language content.toList)
    (pairwise_spots_found single content.toList) target number

theorem countP_le_of_script (script : language = .typeScript ∨ language = .javaScript)
    (content target : String) (number : Nat) :
    ((references language content).filter (·.kind == .export)).countP (writes target number) ≤
        Text.occurrences target.toList (lineAt content.toList number) ∧
      ((references language content).filter (·.kind != .export)).countP (writes target number) ≤
        Text.occurrences target.toList (lineAt content.toList number) := by
  have located := located_of_mem_found language content.toList
  have apart := pairwise_spots_script script content.toList
  rw [countP_kind (· == .export), countP_kind (· != .export)]
  exact ⟨countP_le_occurrences (fun form member => located form (List.mem_of_mem_filter member))
      apart.1 target number,
    countP_le_occurrences (fun form member => located form (List.mem_of_mem_filter member))
      apart.2 target number⟩

/-- A line of Go and the block that holds it may cover one target both. -/
theorem countP_le_of_go (content target : String) (number : Nat) :
    (references .go content).countP (writes target number) ≤
      2 * Text.occurrences target.toList (lineAt content.toList number) := by
  have located := located_of_mem_found .go content.toList
  have onLine : ∀ form ∈ [(search Go.single 0 .start content.toList, Kind.import)],
      ∀ spot ∈ form.1, Located content.toList spot :=
    List.forall_mem_singleton.2 (located _ List.mem_cons_self)
  have inBlock : ∀ form ∈ [(Go.blockEntries content.toList, Kind.import)],
      ∀ spot ∈ form.1, Located content.toList spot :=
    List.forall_mem_singleton.2 (located _ (List.mem_cons_of_mem _ List.mem_cons_self))
  have single := countP_le_occurrences onLine
    (pairwise_spots_singleton (pairwise_search_lt Go.reading_single .start) _) target number
  have block := countP_le_occurrences inBlock
    (pairwise_spots_singleton (Go.pairwise_blockEntries content.toList) _) target number
  have parts : spots (found .go content.toList) =
      spots [(search Go.single 0 .start content.toList, .import)] ++
        spots [(Go.blockEntries content.toList, .import)] := by
    simp [found, spots]
  rw [countP_references, parts, List.countP_append]
  omega

example : references .go "import (\nimport \"x\"\n)\n" = [⟨"x", .import, 2⟩, ⟨"x", .import, 2⟩] := by
  have forms : found .go "import (\nimport \"x\"\n)\n".toList =
      [([(⟨some '"', 17, 2⟩, ['x'])], .import), ([(⟨some '"', 17, 2⟩, ['x'])], .import)] := by
    decide
  rw [references, forms, merge_of_pairwise (by decide)]
  decide

/-- One occurrence of a target has one reference, and in a script one for `export` and one for all
other statements; in Go, where it may stand in a block and on a line of its own, it has two. -/
theorem references_count_le (language : Language) (content target : String) (number : Nat) :
    (references language content).countP (writes target number) ≤
      coverings language * Text.occurrences target.toList (lineAt content.toList number) ∧
    (language ≠ .go →
      ((references language content).filter (·.kind == .export)).countP (writes target number) ≤
        Text.occurrences target.toList (lineAt content.toList number) ∧
      ((references language content).filter (·.kind != .export)).countP (writes target number) ≤
        Text.occurrences target.toList (lineAt content.toList number)) := by
  by_cases single : language ∈ doubleLanguages
  · rw [coverings, if_pos single]
    simp only [doubleLanguages, List.mem_cons, List.not_mem_nil, or_false, ← or_assoc] at single
    cases single with
    | inl script =>
      have parts := countP_le_of_script script content target number
      have both := List.countP_eq_countP_filter_add (references language content)
        (writes target number) (·.kind == .export)
      refine ⟨?_, fun _ => parts⟩
      simp only [bne] at parts
      omega
    | inr go =>
      subst go
      exact ⟨countP_le_of_go content target number, fun other => absurd rfl other⟩
  · have whole := countP_le_of_single single content target number
    refine ⟨?_, fun _ => ⟨?_, ?_⟩⟩
    · rwa [coverings, if_neg single, Nat.one_mul]
    · exact (List.filter_sublist.countP_le).trans whole
    · exact (List.filter_sublist.countP_le).trans whole

/-- A declaration without a semicolon in front of an import. -/
theorem references_count_le_export :
    Language.typeScript ≠ .go ∧
      ((references .typeScript "export const a = 1\nimport b from './m'\n").filter
          (·.kind == .export)).countP (writes "./m" 2) ≤ 1 :=
  ⟨by decide, ((references_count_le .typeScript _ "./m" 2).2 (by decide)).1⟩

/-- The gap behind `export` may reach over the end of its line, up to the clause of an import. -/
theorem references_count_two :
    ¬ (references .typeScript "export const a = 1\nimport b from './m'\n").countP (writes "./m" 2) ≤
      Text.occurrences "./m".toList
        (lineAt "export const a = 1\nimport b from './m'\n".toList 2) := by
  have forms : found .typeScript "export const a = 1\nimport b from './m'\n".toList =
      [([(⟨some '\'', 34, 2⟩, ['.', '/', 'm'])], .import), ([], .require), ([], .dynamicImport),
        ([(⟨some '\'', 34, 2⟩, ['.', '/', 'm'])], .export)] := by
    decide
  have all : references .typeScript "export const a = 1\nimport b from './m'\n" =
      [⟨"./m", .import, 2⟩, ⟨"./m", .export, 2⟩] := by
    rw [references, forms, merge_of_pairwise (by decide)]
    decide
  rw [all]
  decide

end Extract

end FileGraph
