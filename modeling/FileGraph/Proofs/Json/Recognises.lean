import FileGraph.Proofs.Json.Lexeme

/-! # Values in any spelling are read

* `Recognises`: a reader finds in a text what the text stands for, wherever in a document it is
  written.
* `arrayBody_of_arrayText`, `objectBody_of_objectText`: arrays and objects, the parts of which are
  recognised.
* `recognises_value`: values within the limits of depth and size.
* `recognises_text`, `recognises_mapping`, `Recognises.optional`: parts of a wanted form.
-/

namespace FileGraph

theorem Text.joinWith_cons (sep : Char) (piece : List Char) (later : List (List Char)) :
    joinWith sep (piece :: later) = piece ++ later.flatMap (sep :: ·) := by
  induction later generalizing piece with
  | nil => rw [joinWith, List.flatMap_nil, List.append_nil]
  | cons next later ih =>
    rw [joinWith, ih, List.flatMap_cons, List.cons_append]
    exact List.cons_ne_nil next later

namespace Json

open Text.Decimal (isDigit)

/-- A text that begins with a character that neither is white space nor closes an array. -/
def Visible (text : List Char) : Prop :=
  ∃ c more, text = c :: more ∧ isBlank c = false ∧ c ≠ ']'

/-- In `text`, with white space in front and the end of a value behind, `read` finds `value`. -/
structure Recognises {α : Type} (read : Reader α) (text : List Char) (value : α) : Prop where
  visible : Visible text
  reads : ∀ blank rest, Blank blank → Stops rest →
    read (blank ++ (text ++ rest)) = .ok (value, rest)

theorem Visible.quotes {rules : Rules} {text : List Char} {s : String}
    (quotes : Quotes rules text s) : Visible text := by
  obtain ⟨inner, -, rfl⟩ := quotes
  exact ⟨'"', _, rfl, by decide, by decide⟩

theorem Blank.nil : Blank [] :=
  List.forall_mem_nil _

theorem skipBlank_append {blank rest : List Char} {c : Char} (blanks : Blank blank)
    (visible : isBlank c = false) : skipBlank (blank ++ c :: rest) = c :: rest := by
  rw [skipBlank, List.dropWhile_append_of_pos blanks]
  simp [visible]

theorem skipBlank_visible {blank text rest : List Char} (blanks : Blank blank)
    (visible : Visible text) : skipBlank (blank ++ (text ++ rest)) = text ++ rest := by
  obtain ⟨c, more, rfl, visible, -⟩ := visible
  exact skipBlank_append blanks visible

/-! ## Pieces between brackets -/

theorem stops_flatMap (pieces : List (List Char)) {close : Char} (rest : List Char)
    (closes : close = ']' ∨ close = '\x7d') :
    Stops (pieces.flatMap (',' :: ·) ++ close :: rest) := by
  cases pieces with
  | nil => exact .cons rest (.inr closes)
  | cons piece later => exact .cons _ (.inl rfl)

/-- The text between brackets is long enough to pay for its pieces with one character each. -/
theorem length_lt_flatMap (front : List Char) (pieces : List (List Char)) (close : Char)
    (rest : List Char) :
    pieces.length < (front ++ (pieces.flatMap (',' :: ·) ++ close :: rest)).length := by
  induction pieces with
  | nil =>
    simp only [List.flatMap_nil, List.length_append, List.length_cons, List.length_nil]
    omega
  | cons piece later ih =>
    simp only [List.flatMap_cons, List.length_append, List.length_cons] at ih ⊢
    omega

/-! ## Arrays -/

section Array

variable {blank : List Char}

theorem nextItem_first {text : List Char} (blanks : Blank blank) (visible : Visible text)
    (rest : List Char) :
    nextItem true (blank ++ (text ++ rest)) = .ok (some (text ++ rest)) := by
  rw [nextItem, skipBlank_visible blanks visible]
  obtain ⟨c, more, rfl, -, apart⟩ := visible
  simp [apart]

theorem nextItem_later {between text : List Char} (blanks : Blank blank)
    (blanks' : Blank between) (visible : Visible text) (rest : List Char) :
    nextItem false (blank ++ ',' :: (between ++ (text ++ rest))) = .ok (some (text ++ rest)) := by
  rw [nextItem, skipBlank_append blanks (by decide)]
  simp only [skipBlank_visible blanks' visible]
  obtain ⟨c, more, rfl, -, apart⟩ := visible
  simp [apart]

/-- The item in a piece is got to, be it the first one or behind a comma. -/
theorem Padded.exists_nextItem {item piece : List Char} (padded : Padded item piece)
    (visible : Visible item) :
    ∃ behind, Blank behind ∧ ∀ more,
      nextItem true (piece ++ more) = .ok (some (item ++ (behind ++ more))) ∧
      ∀ blank, Blank blank →
        nextItem false (blank ++ ',' :: (piece ++ more)) = .ok (some (item ++ (behind ++ more))) := by
  obtain ⟨before, behind, blanks, blanks', rfl⟩ := padded
  refine ⟨behind, blanks', fun more => ?_⟩
  simp only [List.append_assoc]
  exact ⟨nextItem_first blanks visible _, fun blank blanks₀ =>
    nextItem_later blanks₀ blanks visible _⟩

theorem nextItem_close (first : Bool) (blanks : Blank blank) (rest : List Char) :
    nextItem first (blank ++ ']' :: rest) = .ok none := by
  rw [nextItem, skipBlank_append blanks (by decide)]
  rfl

theorem closeArray_append (blanks : Blank blank) (rest : List Char) :
    closeArray (blank ++ ']' :: rest) = .ok rest := by
  rw [closeArray, skipBlank_append blanks (by decide)]
  rfl

variable {α : Type} {read : Reader α}

theorem itemsReader_item {first : Bool} {fuel : Nat} {text here more stop : List Char}
    {item : α} {items : List α} (next : nextItem first text = .ok (some here))
    (value : read here = .ok (item, more))
    (later : itemsReader read fuel false more = .ok (items, stop)) :
    itemsReader read (fuel + 1) first text = .ok (item :: items, stop) := by
  simp only [itemsReader, next, value, later, bind, Except.bind]

theorem itemsReader_later {values : List α} {items pieces : List (List Char)}
    (recognises : List.Forall₂ (fun value item => Recognises read item value) values items)
    (padded : List.Forall₂ Padded items pieces) (blanks : Blank blank) {fuel : Nat}
    (enough : pieces.length < fuel) (rest : List Char) :
    ∃ left, Blank left ∧
      itemsReader read fuel false (blank ++ (pieces.flatMap (',' :: ·) ++ ']' :: rest)) =
        .ok (values, left ++ ']' :: rest) := by
  -- On the items. What is behind an item is in front of the comma or the bracket that comes next,
  -- hence any white space at the beginning.
  induction recognises generalizing pieces blank fuel with
  | nil =>
    cases padded
    obtain ⟨fuel, rfl⟩ := Nat.exists_eq_add_of_lt enough
    refine ⟨blank, blanks, ?_⟩
    simp only [List.flatMap_nil, List.nil_append, itemsReader, nextItem_close false blanks, bind,
      Except.bind]
  | cons here _ ih =>
    cases padded with
    | @cons item piece _ later padding padded =>
      obtain ⟨behind, blanks', next⟩ := padding.exists_nextItem here.visible
      have stops := stops_flatMap later rest (.inl rfl)
      cases fuel with
      | zero => cases enough
      | succ fuel =>
        obtain ⟨left, blanks'', further⟩ := ih padded blanks' (Nat.lt_of_succ_lt_succ enough)
        refine ⟨left, blanks'', ?_⟩
        simp only [List.flatMap_cons, List.cons_append, List.append_assoc]
        exact itemsReader_item ((next _).2 blank blanks)
          (here.reads [] _ .nil (.append blanks' stops)) further

theorem arrayBody_of_arrayText {values : List α} {items : List (List Char)} {text : List Char}
    (array : ArrayText items text)
    (recognises : List.Forall₂ (fun value item => Recognises read item value) values items) :
    ∃ body, text = '[' :: body ∧
      ∀ rest, arrayBody read (body ++ rest) = .ok (values, rest) := by
  cases array with
  | empty blanks =>
    cases recognises
    refine ⟨_, rfl, fun rest => ?_⟩
    simp only [List.append_assoc, List.cons_append, List.nil_append, arrayBody, itemsReader,
      nextItem_close true blanks, closeArray_append blanks, bind, Except.bind]
  | items nonempty padded =>
    refine ⟨_, rfl, fun rest => ?_⟩
    cases padded with
    | nil => exact absurd rfl nonempty
    | @cons item piece _ later padding padded =>
      cases recognises with
      | cons here recognises =>
        obtain ⟨behind, blanks', next⟩ := padding.exists_nextItem here.visible
        have stops := stops_flatMap later rest (.inl rfl)
        obtain ⟨left, blanks, further⟩ := itemsReader_later recognises padded blanks'
          (length_lt_flatMap piece later ']' rest) rest
        have items := itemsReader_item (next _).1 (here.reads [] _ .nil (.append blanks' stops))
          further
        simp only [Text.joinWith_cons, List.append_assoc, List.cons_append, List.nil_append,
          arrayBody, items, closeArray_append blanks, bind, Except.bind]

end Array

/-! ## Objects -/

section Object

variable {blank : List Char}

theorem nextKey_first {key : List Char} {name : String} (blanks : Blank blank)
    (quotes : Quotes .strict key name) (rest : List Char) :
    nextKey true (blank ++ (key ++ rest)) = .ok (some (name, rest)) := by
  rw [nextKey, skipBlank_visible blanks (.quotes quotes)]
  obtain ⟨inner, spells, rfl⟩ := quotes
  simp [stringBody_of_spells spells, bind, Except.bind]

theorem nextKey_later {between key : List Char} {name : String} (blanks : Blank blank)
    (blanks' : Blank between)
    (quotes : Quotes .strict key name) (rest : List Char) :
    nextKey false (blank ++ ',' :: (between ++ (key ++ rest))) = .ok (some (name, rest)) := by
  rw [nextKey, skipBlank_append blanks (by decide)]
  simp only [skipBlank_visible blanks' (.quotes quotes)]
  obtain ⟨inner, spells, rfl⟩ := quotes
  simp [stringBody_of_spells spells, bind, Except.bind]

theorem nextKey_close (first : Bool) (blanks : Blank blank) (rest : List Char) :
    nextKey first (blank ++ '\x7d' :: rest) = .ok none := by
  rw [nextKey, skipBlank_append blanks (by decide)]
  rfl

theorem colon_append (blanks : Blank blank) (rest : List Char) :
    colon (blank ++ ':' :: rest) = .ok rest := by
  rw [colon, skipBlank_append blanks (by decide)]
  rfl

theorem MemberText.exists_nextKey {member : String × List Char} {piece : List Char}
    (text : MemberText .strict member piece) :
    ∃ before behind, Blank before ∧ Blank behind ∧ ∀ more, ∃ colonText,
      nextKey true (piece ++ more) = .ok (some (member.1, colonText)) ∧
      (∀ blank, Blank blank →
        nextKey false (blank ++ ',' :: (piece ++ more)) = .ok (some (member.1, colonText))) ∧
      colon colonText = .ok (before ++ (member.2 ++ (behind ++ more))) := by
  obtain ⟨front, key, between, _, blanks₁, quotes, blanks₂, ⟨before, behind, blanks₃, blanks₄, rfl⟩,
    rfl⟩ := text
  refine ⟨before, behind, blanks₃, blanks₄, fun more => ?_⟩
  simp only [List.append_assoc, List.cons_append]
  exact ⟨_, nextKey_first blanks₁ quotes _, fun blank blanks => nextKey_later blanks blanks₁ quotes _,
    colon_append blanks₂ _⟩

theorem closeObject_append (blanks : Blank blank) (rest : List Char) :
    closeObject (blank ++ '\x7d' :: rest) = .ok rest := by
  rw [closeObject, skipBlank_append blanks (by decide)]
  rfl

variable {α : Type} {read : Reader α}

theorem entriesReader_entry {first : Bool} {fuel : Nat} {text colonText here more stop : List Char}
    {key : String} {value : α} {entries : List (String × α)}
    (next : nextKey first text = .ok (some (key, colonText))) (passed : colon colonText = .ok here)
    (found : read here = .ok (value, more))
    (later : entriesReader read fuel false more = .ok (entries, stop)) :
    entriesReader read (fuel + 1) first text = .ok ((key, value) :: entries, stop) := by
  simp only [entriesReader, next, passed, found, later, bind, Except.bind]

theorem entriesReader_later {entries : List (String × α)} {members : List (String × List Char)}
    {pieces : List (List Char)}
    (recognises : List.Forall₂ (fun entry member => entry.1 = member.1 ∧
      Recognises read member.2 entry.2) entries members)
    (written : List.Forall₂ (MemberText .strict) members pieces) (blanks : Blank blank) {fuel : Nat}
    (enough : pieces.length < fuel) (rest : List Char) :
    ∃ left, Blank left ∧
      entriesReader read fuel false (blank ++ (pieces.flatMap (',' :: ·) ++ '\x7d' :: rest)) =
        .ok (entries, left ++ '\x7d' :: rest) := by
  induction recognises generalizing pieces blank fuel with
  | nil =>
    cases written
    obtain ⟨fuel, rfl⟩ := Nat.exists_eq_add_of_lt enough
    refine ⟨blank, blanks, ?_⟩
    simp only [List.flatMap_nil, List.nil_append, entriesReader, nextKey_close false blanks, bind,
      Except.bind]
  | @cons entry member _ _ here _ ih =>
    obtain ⟨name, value⟩ := entry
    obtain ⟨rfl, here⟩ := here
    cases written with
    | @cons _ piece _ later text written =>
      obtain ⟨before, behind, blanks₁, blanks₂, next⟩ := text.exists_nextKey
      have stops := stops_flatMap later rest (.inr rfl)
      cases fuel with
      | zero => cases enough
      | succ fuel =>
        obtain ⟨left, blanks', further⟩ := ih written blanks₂ (Nat.lt_of_succ_lt_succ enough)
        obtain ⟨colonText, -, key, passed⟩ := next (later.flatMap (',' :: ·) ++ '\x7d' :: rest)
        refine ⟨left, blanks', ?_⟩
        simp only [List.flatMap_cons, List.cons_append, List.append_assoc]
        exact entriesReader_entry (key blank blanks) passed
          (here.reads before _ blanks₁ (.append blanks₂ stops)) further

theorem objectBody_of_objectText {entries : List (String × α)}
    {members : List (String × List Char)} {text : List Char}
    (object : ObjectText .strict members text)
    (recognises : List.Forall₂ (fun entry member => entry.1 = member.1 ∧
      Recognises read member.2 entry.2) entries members) :
    ∃ body, text = '\x7b' :: body ∧
      ∀ rest, objectBody read (body ++ rest) = .ok (entries, rest) := by
  cases object with
  | empty blanks =>
    cases recognises
    refine ⟨_, rfl, fun rest => ?_⟩
    simp only [List.append_assoc, List.cons_append, List.nil_append, objectBody, entriesReader,
      nextKey_close true blanks, closeObject_append blanks, bind, Except.bind]
  | members nonempty written =>
    refine ⟨_, rfl, fun rest => ?_⟩
    cases written with
    | nil => exact absurd rfl nonempty
    | @cons member piece _ later text written =>
      obtain ⟨before, behind, blanks₁, blanks₂, next⟩ := text.exists_nextKey
      have stops := stops_flatMap later rest (.inr rfl)
      cases recognises with
      | @cons entry _ _ _ here recognises =>
        obtain ⟨name, value⟩ := entry
        obtain ⟨rfl, here⟩ := here
        obtain ⟨left, blanks, further⟩ := entriesReader_later recognises written blanks₂
          (length_lt_flatMap piece later '\x7d' rest) rest
        obtain ⟨colonText, key, -, passed⟩ := next (later.flatMap (',' :: ·) ++ '\x7d' :: rest)
        have entries := entriesReader_entry key passed
          (here.reads before _ blanks₁ (.append blanks₂ stops)) further
        simp only [Text.joinWith_cons, List.append_assoc, List.cons_append, List.nil_append,
          objectBody, entries, closeObject_append blanks, bind, Except.bind]

end Object

/-! ## Values -/

theorem WritesNumber.visible {n : NumberText} {text : List Char} (writes : WritesNumber n text) :
    Visible text := by
  obtain ⟨c, more, rfl, first⟩ := writes.exists_head
  refine ⟨c, more, rfl, ?_, ?_⟩
  · rw [← Bool.not_eq_true]
    intro blank
    simp only [isBlank, Bool.or_eq_true, beq_iff_eq] at blank
    rcases blank with ((rfl | rfl) | rfl) | rfl <;> exact absurd first (by decide)
  · rintro rfl
    exact absurd first (by decide)

theorem LevelText.visible {rules : Rules} {inner : Option (Json → List Char → Prop)}
    {value : Json} {text : List Char} (level : LevelText rules inner value text) :
    Visible text := by
  cases level with
  | null => exact ⟨'n', _, rfl, by decide, by decide⟩
  | true => exact ⟨'t', _, rfl, by decide, by decide⟩
  | false => exact ⟨'f', _, rfl, by decide, by decide⟩
  | number writes => exact writes.visible
  | string quotes => exact .quotes quotes
  | array array =>
    cases array with
    | empty | items => exact ⟨'[', _, rfl, by decide, by decide⟩
  | object object =>
    cases object with
    | empty | members => exact ⟨'\x7b', _, rfl, by decide, by decide⟩

theorem valueWith_append (inner : Option (Reader Json)) {blank text : List Char}
    (blanks : Blank blank) (visible : Visible text) (rest : List Char) :
    valueWith inner (blank ++ (text ++ rest)) = valueWith inner (text ++ rest) := by
  have same : skipBlank (text ++ rest) = text ++ rest := skipBlank_visible .nil visible
  simp only [valueWith, skipBlank_visible blanks visible, same]

theorem valueWith_number (inner : Option (Reader Json)) {n : NumberText} {text : List Char}
    (writes : WritesNumber n text) (rest : List Char) :
    valueWith inner (text ++ rest) = (numberText (text ++ rest)).map fun read =>
      (.number (String.ofList read.1.render), read.2) := by
  have same : skipBlank (text ++ rest) = text ++ rest := skipBlank_visible .nil writes.visible
  rw [valueWith, same]
  obtain ⟨c, more, rfl, first⟩ := writes.exists_head
  -- The names of constants are looked for first.
  have apart : c ≠ 'n' ∧ c ≠ 't' ∧ c ≠ 'f' := by
    refine ⟨?_, ?_, ?_⟩
    all_goals
      rintro rfl
      exact absurd first (by decide)
  simp only [List.cons_append, apart, first, ↓reduceIte]
  rfl

theorem valueWith_string (inner : Option (Reader Json)) (rest : List Char) :
    valueWith inner ('"' :: rest) =
      (stringBody rest).map fun read => (.string (String.ofList read.1), read.2) :=
  rfl

theorem valueWith_array (inner : Reader Json) (rest : List Char) :
    valueWith (some inner) ('[' :: rest) =
      (arrayBody inner rest).map fun read => (.array read.1, read.2) :=
  rfl

theorem valueWith_object (inner : Reader Json) (rest : List Char) :
    valueWith (some inner) ('\x7b' :: rest) =
      (objectBody inner rest).map fun read => (.object (lastValues read.1), read.2) :=
  rfl

/-- What is written at one level is read there, if what is written inside is read inside. -/
theorem recognises_level {inner : Option (Json → List Char → Prop)} {read : Option (Reader Json)}
    (recognises : ∀ writes ∈ inner, ∃ readInner ∈ read, ∀ value text, writes value text →
      Recognises readInner text value)
    {value : Json} {text : List Char} (level : LevelText .strict inner value text) :
    Recognises (valueWith read) text value := by
  refine ⟨level.visible, fun blank rest blanks stops => ?_⟩
  rw [valueWith_append read blanks level.visible]
  -- The first character tells which form it is; only arrays and objects go down a level.
  cases level with
  | null | true | false => rfl
  | number writes inRange =>
    rw [valueWith_number read writes, writes.numberText_append inRange stops]
    rfl
  | string quotes =>
    obtain ⟨inner, spells, rfl⟩ := quotes
    rw [List.cons_append, valueWith_string, List.append_assoc, List.singleton_append,
      stringBody_of_spells spells]
    simp [Except.map]
  | array array written =>
    obtain ⟨readInner, rfl, inside⟩ := recognises _ rfl
    obtain ⟨body, rfl, read⟩ := arrayBody_of_arrayText array (written.imp inside)
    rw [List.cons_append, valueWith_array, read]
    rfl
  | object object written =>
    obtain ⟨readInner, rfl, inside⟩ := recognises _ rfl
    obtain ⟨body, rfl, read⟩ := objectBody_of_objectText object
      (written.imp fun entry member writes => ⟨writes.1, inside entry.2 member.2 writes.2⟩)
    rw [List.cons_append, valueWith_object, read]
    rfl

theorem recognises_value {depth : Nat} {value : Json} {text : List Char}
    (written : ValueText .strict depth value text) :
    Recognises (valueReader depth) text value := by
  induction depth generalizing value text with
  | zero =>
    exact recognises_level (fun writes given => absurd given (Option.not_mem_none writes)) written
  | succ depth ih =>
    refine recognises_level (fun writes same => ?_) written
    obtain rfl := Option.mem_some_iff.1 same
    exact ⟨valueReader depth, rfl, fun value text => ih⟩

/-! ## Parts of a wanted form -/

theorem recognises_text {text : List Char} {s : String} (quotes : Quotes .strict text s) :
    Recognises textReader text (.text s) := by
  refine ⟨.quotes quotes, fun blank rest blanks _ => ?_⟩
  rw [textReader, skipBlank_visible blanks (.quotes quotes)]
  obtain ⟨inner, spells, rfl⟩ := quotes
  simp [stringBody_of_spells spells, bind, Except.bind]

theorem recognises_mapping {depth : Nat} {entries : List (String × Json)} {text : List Char}
    (mapping : MappingText .strict depth entries text) :
    Recognises (mappingReader depth) text (.mapping (lastValues entries)) := by
  obtain ⟨members, object, written⟩ := mapping
  obtain ⟨body, rfl, read⟩ := objectBody_of_objectText object
    (written.imp fun entry member writes => ⟨writes.1, recognises_value writes.2⟩)
  refine ⟨⟨'\x7b', body, rfl, by decide, by decide⟩, fun blank rest blanks _ => ?_⟩
  rw [List.cons_append, mappingReader, skipBlank_append blanks (by decide)]
  simp [read, bind, Except.bind]

theorem optionalReader_append (read : Reader Datum) {blank text : List Char} (blanks : Blank blank)
    (visible : Visible text) (given : text.head? ≠ some 'n') (rest : List Char) :
    optionalReader read (blank ++ (text ++ rest)) = read (blank ++ (text ++ rest)) := by
  rw [optionalReader, skipBlank_visible blanks visible]
  obtain ⟨c, more, rfl, -⟩ := visible
  rw [List.cons_append]
  split
  next same => exact absurd (congrArg some (List.cons.inj same).1) given
  next => rfl

theorem Recognises.optional {read : Reader Datum} {text : List Char} {datum : Datum}
    (recognises : Recognises read text datum) (given : text.head? ≠ some 'n') :
    Recognises (optionalReader read) text datum :=
  ⟨recognises.visible, fun blank rest blanks stops =>
    (optionalReader_append read blanks recognises.visible given rest).trans
      (recognises.reads blank rest blanks stops)⟩

end Json

end FileGraph
