import FileGraph.Proofs.Json.Recognises

/-! # Written values are read back

* `Reads`: a reader finds in the text of a value what the value stands for, wherever in a document
  the value is written.
* `reads_text`, `reads_count`, `reads_flag`, `reads_choice`: the scalars.
* `reads_list`: arrays of values that are read back.
* `reads_record`: objects whose keys are the fields of a record, in the same order.
* `document_pretty`: whole documents.
-/

namespace FileGraph.Json

theorem blank_newline (level : Nat) : Blank (newline level) := by
  intro c member
  cases List.mem_cons.1 member with
  | inl first => exact first ▸ by decide
  | inr space => exact (List.eq_of_mem_replicate space) ▸ by decide

/-- In the text of `value`, with white space in front and the end of the value behind, `read` finds
`datum`. The text begins with a character that neither is white space nor closes an array. -/
structure Reads (read : Reader Datum) (value : Json) (datum : Datum) : Prop where
  exists_head : ∀ level, ∃ c rest, prettyAt level value = c :: rest ∧ isBlank c = false ∧ c ≠ ']'
  reads : ∀ level blank rest, (∀ b ∈ blank, isBlank b = true) → Ended rest →
    read (blank ++ (prettyAt level value ++ rest)) = .ok (datum, rest)

/-! ## Scalars -/

theorem reads_quoted {read : Reader Datum} {text : String} {datum : Datum}
    (reads : ∀ blank rest, (∀ b ∈ blank, isBlank b = true) →
      read (blank ++ '"' :: (text.toList.flatMap escaped ++ '"' :: rest)) = .ok (datum, rest)) :
    Reads read (.string text) datum where
  exists_head := fun _ => ⟨'"', _, by rw [prettyAt, quoted], by decide, by decide⟩
  reads := by
    intro level blank rest blanks _
    rw [prettyAt, quoted_append]
    exact reads blank rest blanks

theorem reads_text (text : String) : Reads textReader (.string text) (.text text) := by
  refine reads_quoted fun blank rest blanks => ?_
  rw [textReader, skipBlank_append blanks (by decide)]
  simp [stringBody_quoted, bind, Except.bind]

theorem nameReader_quoted {names : List String} {name : String} (known : name ∈ names)
    (blank : List Char) {rest : List Char} (blanks : ∀ b ∈ blank, isBlank b = true) :
    nameReader names (blank ++ '"' :: (name.toList.flatMap escaped ++ '"' :: rest)) =
      .ok (.text name, rest) := by
  rw [nameReader, skipBlank_append blanks (by decide)]
  simp [stringBody_quoted, bind, Except.bind, known]

theorem reads_choice {names : List String} {name : String} (known : name ∈ names) :
    Reads (choiceReader names) (.string name) (.text name) := by
  refine reads_quoted fun blank rest blanks => ?_
  rw [choiceReader, skipBlank_append blanks (by decide)]
  exact nameReader_quoted known [] (List.forall_mem_nil _)

theorem reads_count {limit n : Nat} (fits : n < limit)
    (limit_le : limit ≤ NumberText.significandLimit) :
    Reads (countReader limit) (.ofNat n) (.count n) := by
  obtain ⟨c, more, shape, first, -⟩ := digits_eq_cons n
  have visible : isBlank c = false := by
    rw [← Bool.not_eq_true]
    intro blank
    simp only [isBlank, Bool.or_eq_true, beq_iff_eq] at blank
    rcases blank with ((rfl | rfl) | rfl) | rfl <;> exact absurd first (by decide)
  have written : ∀ level, prettyAt level (.ofNat n) = Text.Decimal.digits n := by
    intro level
    rw [ofNat, prettyAt, Text.Decimal.render, String.toList_ofList]
  refine ⟨fun level => ⟨c, more, (written level).trans shape, visible, ?_⟩, ?_⟩
  · rintro rfl
    exact absurd first (by decide)
  · intro level blank rest blanks ended
    have number := numberText_digits (Nat.lt_of_lt_of_le fits limit_le) ended
    rw [written, countReader]
    rw [shape, List.cons_append] at number ⊢
    simp only [skipBlank_append blanks visible, first, or_true, ↓reduceIte, number, bind,
      Except.bind]
    rw [← shape, NumberText.natural?_digits]
    simp [fits]

theorem reads_flag (flag : Bool) : Reads flagReader (.bool flag) (.flag flag) := by
  cases flag with
  | true =>
      refine ⟨fun _ => ⟨'t', _, by rw [prettyAt], by decide, by decide⟩, ?_⟩
      intro level blank rest blanks _
      rw [prettyAt, flagReader, List.cons_append, skipBlank_append blanks (by decide)]
      rfl
  | false =>
      refine ⟨fun _ => ⟨'f', _, by rw [prettyAt], by decide, by decide⟩, ?_⟩
      intro level blank rest blanks _
      rw [prettyAt, flagReader, List.cons_append, skipBlank_append blanks (by decide)]
      rfl

/-! ## Pieces between brackets -/

/-- What stands behind a piece between brackets: the later pieces, and what closes the brackets. -/
def behind (level : Nat) (stop : List Char) : List (List Char) → List Char
  | [] => stop
  | piece :: later => ',' :: (newline level ++ (piece ++ behind level stop later))

theorem joinWith_append (level : Nat) (stop piece : List Char) (later : List (List Char)) :
    Text.joinWith ',' ((piece :: later).map (newline level ++ ·)) ++ stop =
      newline level ++ (piece ++ behind level stop later) := by
  induction later generalizing piece with
  | nil => simp [Text.joinWith, behind]
  | cons next later ih =>
      simp only [List.map_cons] at ih
      simp only [List.map_cons, Text.joinWith, behind, List.append_assoc, List.cons_append, ih]

theorem bracketed_append (level : Nat) (opening closing : Char) (piece rest : List Char)
    (later : List (List Char)) :
    bracketed level opening closing (piece :: later) ++ rest =
      opening :: (newline (level + 1) ++
        (piece ++ behind (level + 1) (newline level ++ closing :: rest) later)) := by
  rw [← joinWith_append]
  simp [bracketed]

variable {level inner : Nat} {closing : Char} {rest : List Char}

theorem ended_behind (pieces : List (List Char)) :
    Ended (behind inner (newline level ++ closing :: rest) pieces) := by
  cases pieces with
  | nil => exact fun c first => .inr (Option.some.inj first).symm
  | cons piece later => exact fun c first => .inl (Option.some.inj first).symm

theorem length_lt_behind (inner : Nat) (stop piece : List Char) (later : List (List Char)) :
    later.length < (newline inner ++ (piece ++ behind inner stop later)).length := by
  have long : ∀ pieces, pieces.length ≤ (behind inner stop pieces).length := by
    intro pieces
    induction pieces with
    | nil => exact Nat.zero_le _
    | cons piece later ih =>
        simp only [behind, List.length_cons, List.length_append]
        omega
  have bound := long later
  simp only [newline, List.length_append, List.length_cons]
  omega

/-! ## Arrays -/

section List

variable {α : Type} {read : Reader Datum} {json : α → Json} {datum : α → Datum}

variable (level inner rest) in
theorem itemsReader_behind {xs : List α} (reads : ∀ x ∈ xs, Reads read (json x) (datum x))
    {fuel : Nat} (enough : xs.length < fuel) :
    itemsReader read fuel false
        (behind inner (newline level ++ ']' :: rest) (xs.map fun x => prettyAt inner (json x))) =
      .ok (xs.map datum, newline level ++ ']' :: rest) := by
  induction xs generalizing fuel with
  | nil =>
      cases fuel with
      | zero => cases enough
      | succ fuel =>
          simp only [List.map_nil, behind, itemsReader, nextItem_close false (blank_newline level),
            bind, Except.bind]
  | cons x xs ih =>
      cases fuel with
      | zero => cases enough
      | succ fuel =>
          have here := reads x List.mem_cons_self
          have later := ih (fun y member => reads y (List.mem_cons_of_mem x member))
            (Nat.lt_of_succ_lt_succ enough)
          exact itemsReader_item
            (nextItem_later .nil (blank_newline inner) (here.exists_head inner) _)
            (here.reads inner [] _ (List.forall_mem_nil _) (ended_behind _)) later

theorem arrayBody_pretty {x : α} {xs : List α}
    (reads : ∀ y ∈ x :: xs, Reads read (json y) (datum y)) :
    arrayBody read (newline inner ++ (prettyAt inner (json x) ++
        behind inner (newline level ++ ']' :: rest) (xs.map fun y => prettyAt inner (json y)))) =
      .ok ((x :: xs).map datum, rest) := by
  have here := reads x List.mem_cons_self
  have enough := length_lt_behind inner (newline level ++ ']' :: rest)
    (prettyAt inner (json x)) (xs.map fun y => prettyAt inner (json y))
  rw [List.length_map] at enough
  have later := itemsReader_behind level inner rest
    (fun y member => reads y (List.mem_cons_of_mem x member)) enough
  have next := nextItem_first (blank_newline inner) (here.exists_head inner)
    (behind inner (newline level ++ ']' :: rest) (xs.map fun y => prettyAt inner (json y)))
  have all := itemsReader_item next
    (here.reads inner [] _ (List.forall_mem_nil _) (ended_behind _)) later
  rw [arrayBody, all]
  simp only [bind, Except.bind, closeArray_append (blank_newline level), List.map_cons]

theorem reads_list {xs : List α} (reads : ∀ x ∈ xs, Reads read (json x) (datum x)) :
    Reads (listReader read) (.array (xs.map json)) (.list (xs.map datum)) := by
  have written : ∀ level, prettyAt level (.array (xs.map json)) =
      bracketed level '[' ']' (xs.map fun x => prettyAt (level + 1) (json x)) := by
    intro level
    rw [prettyAt, prettyItems_eq_map, List.map_map]
    rfl
  constructor
  · intro level
    rw [written]
    cases xs with
    | nil => exact ⟨'[', _, rfl, by decide, by decide⟩
    | cons x xs => exact ⟨'[', _, rfl, by decide, by decide⟩
  · intro level blank rest blanks ended
    rw [written]
    cases xs with
    | nil =>
        have bare : bracketed level '[' ']' [] ++ rest = '[' :: ']' :: rest := rfl
        rw [List.map_nil, bare, listReader, skipBlank_append blanks (by decide)]
        rfl
    | cons x xs =>
        rw [List.map_cons, bracketed_append, listReader, skipBlank_append blanks (by decide)]
        simp only [arrayBody_pretty reads, bind, Except.bind]

end List

/-! ## Objects -/

/-- A field of a record, the value that is written for it and what is read from that value. -/
structure Part where
  field : Field
  value : Json
  datum : Datum

namespace Part

def entry (part : Part) : String × Json :=
  (part.field.name, part.value)

def known (part : Part) : String × Datum :=
  (part.field.name, part.datum)

def text (level : Nat) (part : Part) : List Char :=
  quoted part.field.name ++ (':' :: ' ' :: prettyAt level part.value)

end Part

theorem prettyAt_object (level : Nat) (parts : List Part) :
    prettyAt level (.object (parts.map (·.entry))) =
      bracketed level '\x7b' '\x7d' (parts.map (·.text (level + 1))) := by
  rw [prettyAt, prettyEntries_eq_map, List.map_map]
  rfl

section Record

variable {parts : List Part} (distinct : (parts.map (·.field.name)).Nodup)
  (reads : ∀ part ∈ parts, Reads part.field.read part.value part.datum)

include distinct in
theorem find?_field {part : Part} (member : part ∈ parts) :
    (parts.map (·.field)).find? (·.name == part.field.name) = some part.field := by
  induction parts with
  | nil => cases member
  | cons first later ih =>
      rw [List.map_cons, List.nodup_cons] at distinct
      rw [List.map_cons, List.find?_cons]
      cases List.mem_cons.1 member with
      | inl here => simp [here]
      | inr there =>
          have apart : first.field.name ≠ part.field.name := fun same =>
            distinct.1 (same ▸ List.mem_map_of_mem there)
          rw [beq_false_of_ne apart]
          exact ih distinct.2 there

include distinct in
theorem lookup_known {part : Part} (member : part ∈ parts) :
    (parts.map (·.known)).lookup part.field.name = some part.datum := by
  induction parts with
  | nil => cases member
  | cons first later ih =>
      rw [List.map_cons, List.nodup_cons] at distinct
      rw [List.map_cons, Part.known, List.lookup_cons]
      cases List.mem_cons.1 member with
      | inl here => simp [here]
      | inr there =>
          have apart : part.field.name ≠ first.field.name := fun same =>
            distinct.1 (same ▸ List.mem_map_of_mem there)
          rw [beq_false_of_ne apart]
          exact ih distinct.2 there

theorem complete_of_lookup {known : List (String × Datum)} {some : List Part}
    (held : ∀ part ∈ some, known.lookup part.field.name = .some part.datum) :
    complete known (some.map (·.field)) = .ok (some.map (·.datum)) := by
  induction some with
  | nil => rfl
  | cons part later ih =>
      have rest := ih fun other member => held other (List.mem_cons_of_mem part member)
      simp only [List.map_cons, complete, held part List.mem_cons_self, rest, bind, Except.bind]

include distinct reads in
/-- One field further: its key and value are read from what `nextKey` leaves. -/
theorem fieldsReader_part {first : Bool} {fuel : Nat} {before later : List Part} {part : Part}
    {text more : List Char} (split : parts = before ++ part :: later)
    (key : nextKey first text = .ok (some (part.field.name,
      ':' :: ' ' :: (prettyAt inner part.value ++ more)))) (ended : Ended more) :
    fieldsReader (parts.map (·.field)) (fuel + 1) first (before.map (·.known)) text =
      fieldsReader (parts.map (·.field)) fuel false ((before ++ [part]).map (·.known)) more := by
  have member : part ∈ parts := split ▸ by simp
  have fresh : (before.map (·.known)).lookup part.field.name = none := by
    rw [List.lookup_eq_none_iff]
    intro entry given
    obtain ⟨earlier, inside, rfl⟩ := List.mem_map.1 given
    rw [split, List.map_append, List.nodup_append] at distinct
    have apart := distinct.2.2 _ (List.mem_map_of_mem inside) _
      (List.mem_map_of_mem List.mem_cons_self)
    exact bne_iff_ne.2 (Ne.symm apart)
  have value : part.field.read (' ' :: (prettyAt inner part.value ++ more)) =
      .ok (part.datum, more) :=
    (reads part member).reads inner [' '] more (List.forall_mem_singleton.2 rfl) ended
  have passed : colon (':' :: ' ' :: (prettyAt inner part.value ++ more)) =
      .ok (' ' :: (prettyAt inner part.value ++ more)) := rfl
  simp only [fieldsReader, key, bind, Except.bind, find?_field distinct member, fresh,
    Option.isSome_none, Bool.false_eq_true, ↓reduceIte, passed, value]
  rw [List.map_append]
  rfl

variable (level inner rest) in
include distinct reads in
theorem fieldsReader_behind {before later : List Part} (split : parts = before ++ later)
    {fuel : Nat} (enough : later.length < fuel) :
    fieldsReader (parts.map (·.field)) fuel false (before.map (·.known))
        (behind inner (newline level ++ '\x7d' :: rest) (later.map (·.text inner))) =
      .ok (parts.map (·.known), newline level ++ '\x7d' :: rest) := by
  induction later generalizing before fuel with
  | nil =>
      cases fuel with
      | zero => cases enough
      | succ fuel =>
          rw [List.append_nil] at split
          simp only [List.map_nil, behind, fieldsReader, nextKey_close false (blank_newline level),
            split, bind, Except.bind]
  | cons part later ih =>
      cases fuel with
      | zero => cases enough
      | succ fuel =>
          have longer : parts = (before ++ [part]) ++ later := by
            rw [split]
            simp
          have further := ih longer (Nat.lt_of_succ_lt_succ enough)
          have key := nextKey_later .nil (blank_newline inner) (quotes_quoted part.field.name)
            (':' :: ' ' :: (prettyAt inner part.value ++
              behind inner (newline level ++ '\x7d' :: rest) (later.map (·.text inner))))
          rw [List.map_cons, behind, Part.text, List.append_assoc]
          exact (fieldsReader_part distinct reads split key (ended_behind _)).trans further

include distinct reads in
theorem fieldsReader_pretty {part : Part} {later : List Part} (split : parts = part :: later) :
    let text := newline inner ++ (part.text inner ++
      behind inner (newline level ++ '\x7d' :: rest) (later.map (·.text inner)))
    fieldsReader (parts.map (·.field)) (text.length + 1) true [] text =
      .ok (parts.map (·.known), newline level ++ '\x7d' :: rest) := by
  intro text
  have enough := length_lt_behind inner (newline level ++ '\x7d' :: rest)
    (part.text inner) (later.map (·.text inner))
  rw [List.length_map] at enough
  have opened : parts = [part] ++ later := split
  have further := fieldsReader_behind level inner rest distinct reads opened enough
  have key : nextKey true text = .ok (some (part.field.name, ':' :: ' ' ::
      (prettyAt inner part.value ++
        behind inner (newline level ++ '\x7d' :: rest) (later.map (·.text inner))))) := by
    rw [← nextKey_first (blank_newline inner) (quotes_quoted part.field.name)]
    simp [text, Part.text]
  have first : parts = [] ++ part :: later := split
  exact (fieldsReader_part distinct reads first key (ended_behind _)).trans further

variable (parts) in
include distinct reads in
/-- An object that gives the fields of a record in their order is read as the record. -/
theorem reads_record : Reads (recordReader (parts.map (·.field)))
    (.object (parts.map (·.entry))) (.record (parts.map (·.datum))) := by
  constructor
  · intro level
    rw [prettyAt_object]
    cases parts with
    | nil => exact ⟨'\x7b', _, rfl, by decide, by decide⟩
    | cons part later => exact ⟨'\x7b', _, rfl, by decide, by decide⟩
  · intro level blank rest blanks _
    rw [prettyAt_object]
    by_cases empty : parts = []
    · subst empty
      -- Empty brackets stand on one line.
      have bare : bracketed level '\x7b' '\x7d' [] ++ rest = '\x7b' :: '\x7d' :: rest := rfl
      simp only [List.map_nil]
      rw [bare, recordReader, skipBlank_append blanks (by decide)]
      rfl
    · obtain ⟨part, later, split⟩ := List.exists_cons_of_ne_nil empty
      have written : bracketed level '\x7b' '\x7d' (parts.map (·.text (level + 1))) ++ rest =
          '\x7b' :: (newline (level + 1) ++ (part.text (level + 1) ++ behind (level + 1)
            (newline level ++ '\x7d' :: rest) (later.map (·.text (level + 1))))) := by
        rw [split, List.map_cons, bracketed_append]
      have values : complete (parts.map (·.known)) (parts.map (·.field)) =
          .ok (parts.map (·.datum)) :=
        complete_of_lookup fun part member => lookup_known distinct member
      rw [written, recordReader, skipBlank_append blanks (by decide)]
      simp only [fieldsReader_pretty distinct reads split, values,
        closeObject_append (blank_newline level), bind, Except.bind]

end Record

/-! ## Documents -/

theorem document_pretty {read : Reader Datum} {value : Json} {datum : Datum}
    (reads : Reads read value datum) : document read value.pretty = .ok datum := by
  have whole := reads.reads 0 [] [] (List.forall_mem_nil _) (fun _ none => by cases none)
  rw [List.nil_append, List.append_nil] at whole
  rw [document, pretty, String.toList_ofList, whole]
  rfl

end FileGraph.Json
