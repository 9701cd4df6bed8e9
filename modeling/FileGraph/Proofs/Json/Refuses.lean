import FileGraph.Proofs.Json.Recognises

/-! # A problem inside a document is one of the document

* `Refuses`: a reader finds a problem in a text, whatever follows it.
* `refuses_tooLarge`, `refuses_tooDeep`, `refuses_lone`: values that are well formed and yet not read.
* `Refuses.array`, `Refuses.mapping`, `Refuses.record`: the problem of a part is that of the whole.
* `Refuses.document`: and in the end that of the document.
-/

namespace FileGraph.Json

/-- In `text`, with the end of a value behind, `read` finds a problem. The text begins as a value
does. -/
structure Refuses {α : Type} (read : Reader α) (text : List Char) (problem : Problem) : Prop where
  visible : Visible text
  refuses : ∀ rest, Stops rest → read (text ++ rest) = .error problem

/-! ## Values that are not read -/

theorem refuses_tooLarge {n : NumberText} {text : List Char} (writes : WritesNumber n text)
    (tooLarge : n.isTooLarge = true) (depth : Nat) : Refuses (valueReader depth) text .malformed := by
  refine ⟨writes.visible, fun rest stops => ?_⟩
  have number : numberText (text ++ rest) = .error .malformed := by
    simp only [numberText, writes.numberShape_append .truncated stops, bind, Except.bind,
      tooLarge, ↓reduceIte]
  cases depth with
  | zero | succ =>
    rw [valueReader, valueWith_number _ writes, number]
    rfl

section Array

variable {α : Type} {read : Reader α} {problem : Problem}

theorem itemsReader_refused {first : Bool} (fuel : Nat) {text here : List Char}
    (next : nextItem first text = .ok (some here)) (refused : read here = .error problem) :
    itemsReader read (fuel + 1) first text = .error problem := by
  simp only [itemsReader, next, refused, bind, Except.bind]

theorem arrayBody_refused {text here : List Char} (next : nextItem true text = .ok (some here))
    (refused : read here = .error problem) : arrayBody read text = .error problem := by
  simp only [arrayBody, itemsReader_refused _ next refused, bind, Except.bind]

end Array

/-- Where more arrays are opened than may be open inside each other, nothing is read, whatever is in
them. -/
theorem valueReader_tooDeep (depth : Nat) (rest : List Char) :
    valueReader depth (List.replicate (depth + 1) '[' ++ rest) = .error .malformed := by
  -- The first item of the outer array is the array one level below.
  induction depth with
  | zero => rfl
  | succ depth ih =>
    have next : nextItem true (List.replicate (depth + 1) '[' ++ rest) =
        .ok (some (List.replicate (depth + 1) '[' ++ rest)) := rfl
    rw [List.replicate_succ, List.cons_append, valueReader, valueWith_array,
      arrayBody_refused next ih]
    rfl

theorem refuses_tooDeep (depth : Nat) (text : List Char) :
    Refuses (valueReader depth) (List.replicate (depth + 1) '[' ++ text) .malformed := by
  refine ⟨⟨'[', _, rfl, by decide, by decide⟩, fun rest _ => ?_⟩
  rw [List.append_assoc, valueReader_tooDeep]

theorem stringBody_refused {text : List Char} {problem : Problem}
    (refused : escape text = .error problem) : stringBody ('\\' :: text) = .error problem := by
  rw [stringBody, if_neg (by decide), if_pos rfl]
  split
  next found =>
    obtain rfl := Except.error.inj (found.symm.trans refused)
    rfl
  next read => simp [refused] at read

/-- The second half of a pair of code units stands for nothing without the first. -/
theorem refuses_lone {digits : List Char} {unit : Nat} (writes : WritesUnit digits unit)
    (trailing : isTrailing unit = true) (depth : Nat) (text : List Char) :
    Refuses (valueReader depth) ('"' :: '\\' :: 'u' :: (digits ++ text)) .malformed := by
  refine ⟨⟨'"', _, rfl, by decide, by decide⟩, fun rest _ => ?_⟩
  have refused : escape ('u' :: (digits ++ (text ++ rest))) = .error .malformed := by
    simp only [escape, codeUnit_of_writes writes, bind, Except.bind, trailing, ↓reduceIte]
  cases depth with
  | zero | succ =>
    rw [List.cons_append, List.cons_append, List.cons_append, List.append_assoc, valueReader,
      valueWith_string, stringBody_refused refused]
    rfl

/-! ## From the part to the whole -/

namespace Refuses

variable {problem : Problem} {text : List Char}

theorem array {read : Reader Json} {first : List Char} {item : Json}
    (recognises : Recognises read first item) (refuses : Refuses read text problem) :
    Refuses (valueWith (some read)) (compactArray [first, text]) problem := by
  refine ⟨⟨'[', _, rfl, by decide, by decide⟩, fun rest _ => ?_⟩
  have refused := refuses.refuses (']' :: rest) (.cons rest (.inr (.inl rfl)))
  have found := recognises.reads [] (',' :: (text ++ ']' :: rest)) .nil (.cons _ (.inl rfl))
  have next := nextItem_first .nil recognises.visible (',' :: (text ++ ']' :: rest))
  have next' := nextItem_later .nil .nil refuses.visible (']' :: rest)
  simp only [List.nil_append] at found next next'
  have body : arrayBody read (first ++ ',' :: (text ++ ']' :: rest)) = .error problem := by
    obtain ⟨fuel, long⟩ : ∃ fuel, (first ++ ',' :: (text ++ ']' :: rest)).length = fuel + 1 := by
      rw [List.length_append, List.length_cons]
      exact ⟨_, rfl⟩
    have second := itemsReader_refused fuel next' refused
    rw [arrayBody, long, itemsReader]
    simp only [next, found, second, bind, Except.bind]
  simp only [compactArray, Text.joinWith, List.cons_append, List.append_assoc, List.nil_append,
    valueWith_array, body]
  rfl

section Entry

variable {α : Type} {read : Reader α}

theorem objectBody_entry (refuses : Refuses read text problem) (key : String) (rest : List Char) :
    objectBody read (quoted key ++ ':' :: (text ++ '\x7d' :: rest)) = .error problem := by
  have refused := refuses.refuses ('\x7d' :: rest) (.cons rest (.inr (.inr rfl)))
  have next := nextKey_first .nil (quotes_quoted key) (':' :: (text ++ '\x7d' :: rest))
  have passed := colon_append .nil (text ++ '\x7d' :: rest)
  rw [List.nil_append] at next passed
  simp only [objectBody, entriesReader, next, passed, refused, bind, Except.bind]

end Entry

theorem mapping {depth : Nat} (refuses : Refuses (valueReader depth) text problem) (key : String) :
    Refuses (mappingReader depth) (compactObject [(key, text)]) problem := by
  refine ⟨⟨'\x7b', _, rfl, by decide, by decide⟩, fun rest _ => ?_⟩
  have body := refuses.objectBody_entry key rest
  have visible : skipBlank ('\x7b' :: (quoted key ++ ':' :: (text ++ '\x7d' :: rest))) =
      '\x7b' :: (quoted key ++ ':' :: (text ++ '\x7d' :: rest)) := rfl
  simp only [compactObject, List.map_cons, List.map_nil, Text.joinWith, List.cons_append,
    List.append_assoc, List.nil_append, mappingReader, visible, body, bind, Except.bind]

theorem optional {read : Reader Datum} (refuses : Refuses read text problem)
    (given : text.head? ≠ some 'n') : Refuses (optionalReader read) text problem :=
  ⟨refuses.visible, fun rest stops =>
    (optionalReader_append read .nil refuses.visible given rest).trans
      (refuses.refuses rest stops)⟩

theorem record {fields : List Field} {field : Field} {name : String}
    (found : fields.find? (·.name == name) = some field)
    (refuses : Refuses field.read text problem) :
    Refuses (recordReader fields) (compactObject [(name, text)]) problem := by
  refine ⟨⟨'\x7b', _, rfl, by decide, by decide⟩, fun rest _ => ?_⟩
  have refused := refuses.refuses ('\x7d' :: rest) (.cons rest (.inr (.inr rfl)))
  have next := nextKey_first .nil (quotes_quoted name) (':' :: (text ++ '\x7d' :: rest))
  have passed := colon_append .nil (text ++ '\x7d' :: rest)
  rw [List.nil_append] at next passed
  have visible : skipBlank ('\x7b' :: (quoted name ++ ':' :: (text ++ '\x7d' :: rest))) =
      '\x7b' :: (quoted name ++ ':' :: (text ++ '\x7d' :: rest)) := rfl
  simp only [compactObject, List.map_cons, List.map_nil, Text.joinWith, List.cons_append,
    List.append_assoc, List.nil_append, recordReader, visible, fieldsReader, next, found,
    List.lookup_nil, Option.isSome_none, Bool.false_eq_true, ↓reduceIte, passed, refused, bind,
    Except.bind]

theorem document {read : Reader Datum} {whole : String}
    (refuses : Refuses read whole.toList problem) : Json.document read whole = .error problem := by
  have refused := refuses.refuses [] .nil
  rw [List.append_nil] at refused
  rw [Json.document, refused]
  rfl

end Refuses

end FileGraph.Json
