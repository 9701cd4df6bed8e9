import FileGraph.Proofs.Json.Passed

/-! # Records in any spelling are read

A record may be written with its keys in any order, with keys left out, and with other keys between
them, the values of which may be anything.

* `Suits`: what a record makes of a member.
* `Gathered`: what is known of the fields after some of the members. One member keeps it
  (`fieldsReader_member`), and so do all (`fieldsReader_later`).
* `recognises_record`: objects whose members suit a record.
* `document_of_recognises`: whole documents.
-/

namespace FileGraph.Json

section Record

variable {fields : List Field} {given : String → Datum}

variable (fields given) in
/-- A member with the name of a field is recognised as what is given under that name; any other
one has any value. -/
def Suits (member : String × List Char) : Prop :=
  match fields.find? (·.name == member.1) with
  | some field => Recognises field.read member.2 (given member.1)
  | none => AnyValue member.2

variable (fields given) in
/-- Of the fields, those with the names `seen` are known, and they have the given values. -/
def Gathered (seen : List String) (known : List (String × Datum)) : Prop :=
  ∀ field ∈ fields,
    known.lookup field.name = if field.name ∈ seen then some (given field.name) else none

theorem fieldsReader_member {first : Bool} (fuel : Nat) {seen : List String}
    {known : List (String × Datum)} {member : String × List Char}
    {text colonText blank more : List Char} (gathered : Gathered fields given seen known)
    (suits : Suits fields given member)
    (fresh : ∀ field ∈ fields, field.name = member.1 → member.1 ∉ seen)
    (key : nextKey first text = .ok (some (member.1, colonText)))
    (passed : colon colonText = .ok (blank ++ (member.2 ++ more))) (blanks : Blank blank)
    (stops : Stops more) :
    ∃ known', Gathered fields given (seen ++ [member.1]) known' ∧
      fieldsReader fields (fuel + 1) first known text =
        fieldsReader fields fuel false known' more := by
  unfold Suits at suits
  cases found : fields.find? (·.name == member.1) with
  | none =>
    rw [found] at suits
    -- No field has the key, so that its value is passed over.
    refine ⟨known, fun field asked => ?_, ?_⟩
    · have apart : field.name ≠ member.1 := by
        simpa using List.find?_eq_none.1 found field asked
      rw [gathered field asked]
      simp [apart]
    · simp only [fieldsReader, key, found, passed, suits.skipAny_append blanks stops, bind,
        Except.bind]
  | some field =>
    rw [found] at suits
    have asked := List.mem_of_find?_eq_some found
    have name : field.name = member.1 := by simpa using List.find?_some found
    -- The field has no value yet, since its key was not read before.
    have unknown : known.lookup member.1 = none := by
      rw [← name, gathered field asked, name, if_neg (fresh field asked name)]
    refine ⟨known ++ [(member.1, given member.1)], fun other asked' => ?_, ?_⟩
    · rw [List.lookup_append, gathered other asked']
      by_cases same : other.name = member.1
      · simp [same, fresh other asked' same]
      · have apart : (other.name == member.1) = false := beq_false_of_ne same
        by_cases before : other.name ∈ seen <;> simp [before, same, apart, List.lookup_cons]
    · simp only [fieldsReader, key, found, unknown, Option.isSome_none, Bool.false_eq_true,
        ↓reduceIte, passed, suits.reads blank more blanks stops, bind, Except.bind]

theorem fieldsReader_later {members : List (String × List Char)} {pieces : List (List Char)}
    (written : List.Forall₂ (MemberText .strict) members pieces)
    (suits : ∀ member ∈ members, Suits fields given member) {seen : List String}
    (once : ∀ field ∈ fields, (seen ++ members.map (·.1)).count field.name ≤ 1)
    {known : List (String × Datum)} (gathered : Gathered fields given seen known)
    {blank : List Char} (blanks : Blank blank) {fuel : Nat} (enough : pieces.length < fuel)
    (rest : List Char) :
    ∃ left known', Blank left ∧ Gathered fields given (seen ++ members.map (·.1)) known' ∧
      fieldsReader fields fuel false known
          (blank ++ (pieces.flatMap (',' :: ·) ++ '\x7d' :: rest)) =
        .ok (known', left ++ '\x7d' :: rest) := by
  -- On the members; the fields that are known grow with them, and none is given a second time.
  induction written generalizing seen known blank fuel with
  | nil =>
    obtain ⟨fuel, rfl⟩ := Nat.exists_eq_add_of_lt enough
    refine ⟨blank, known, blanks, ?_, ?_⟩
    · rwa [List.map_nil, List.append_nil]
    · simp only [List.flatMap_nil, List.nil_append, fieldsReader, nextKey_close false blanks, bind,
        Except.bind]
  | @cons member piece members pieces text written ih =>
    obtain ⟨before, behind, blanks₁, blanks₂, next⟩ := text.exists_nextKey
    have stops := stops_flatMap pieces rest (.inr rfl)
    obtain ⟨here, later⟩ := List.forall_mem_cons.1 suits
    cases fuel with
    | zero => cases enough
    | succ fuel =>
      have fresh : ∀ field ∈ fields, field.name = member.1 → member.1 ∉ seen := by
        intro field asked name inside
        have twice := once field asked
        have before := List.count_pos_iff.2 inside
        rw [List.map_cons, List.count_append, name, List.count_cons_self] at twice
        omega
      obtain ⟨colonText, -, key, passed⟩ := next (pieces.flatMap (',' :: ·) ++ '\x7d' :: rest)
      obtain ⟨known', gathered', step⟩ := fieldsReader_member fuel gathered here fresh
        (key blank blanks) passed blanks₁ (.append blanks₂ stops)
      have split : seen ++ (member :: members).map (·.1) =
          (seen ++ [member.1]) ++ members.map (·.1) := by simp
      rw [split] at once ⊢
      obtain ⟨left, known'', blanks', gathered'', further⟩ :=
        ih later once gathered' blanks₂ (Nat.lt_of_succ_lt_succ enough)
      refine ⟨left, known'', blanks', gathered'', ?_⟩
      simp only [List.flatMap_cons, List.cons_append, List.append_assoc]
      exact step.trans further

theorem fieldsReader_of_objectText {members : List (String × List Char)} {text : List Char}
    (object : ObjectText .strict members text)
    (suits : ∀ member ∈ members, Suits fields given member)
    (once : ∀ field ∈ fields, (members.map (·.1)).count field.name ≤ 1) :
    ∃ body, text = '\x7b' :: body ∧ ∀ rest, ∃ left known, Blank left ∧
      Gathered fields given (members.map (·.1)) known ∧
      fieldsReader fields ((body ++ rest).length + 1) true [] (body ++ rest) =
        .ok (known, left ++ '\x7d' :: rest) := by
  have unknown : Gathered fields given [] [] := fun field _ => by simp
  cases object with
  | @empty blank blanks =>
    refine ⟨_, rfl, fun rest => ⟨blank, [], blanks, unknown, ?_⟩⟩
    simp only [List.append_assoc, List.cons_append, List.nil_append, fieldsReader,
      nextKey_close true blanks, bind, Except.bind]
  | members nonempty written =>
    refine ⟨_, rfl, fun rest => ?_⟩
    cases written with
    | nil => exact absurd rfl nonempty
    | @cons member piece members pieces text written =>
      obtain ⟨before, behind, blanks₁, blanks₂, next⟩ := text.exists_nextKey
      obtain ⟨here, later⟩ := List.forall_mem_cons.1 suits
      have fresh : ∀ field ∈ fields, field.name = member.1 → member.1 ∉ [] :=
        fun _ _ _ => List.not_mem_nil
      simp only [Text.joinWith_cons, List.append_assoc, List.cons_append, List.nil_append]
      obtain ⟨colonText, key, -, passed⟩ := next (pieces.flatMap (',' :: ·) ++ '\x7d' :: rest)
      obtain ⟨known, gathered, step⟩ := fieldsReader_member _ unknown here fresh key passed blanks₁
        (.append blanks₂ (stops_flatMap pieces rest (.inr rfl)))
      obtain ⟨left, known', blanks, gathered', further⟩ := fieldsReader_later written later once
        gathered blanks₂ (length_lt_flatMap piece pieces '\x7d' rest) rest
      exact ⟨left, known', blanks, gathered', step.trans further⟩

theorem complete_of_gathered {seen : List String} {known : List (String × Datum)}
    (gathered : Gathered fields given seen known)
    (absent : ∀ field ∈ fields, field.canBeAbsent = true ∨ field.name ∈ seen) :
    complete known fields =
      .ok (fields.map fun field => if field.name ∈ seen then given field.name else .absent) := by
  induction fields with
  | nil => rfl
  | cons field later ih =>
    obtain ⟨here, gathered⟩ := List.forall_mem_cons.1 gathered
    obtain ⟨missing, absent⟩ := List.forall_mem_cons.1 absent
    have rest := ih gathered absent
    by_cases found : field.name ∈ seen
    · simp only [complete, here, found, rest, List.map_cons, ↓reduceIte, bind, Except.bind]
    · have optional := missing.resolve_right found
      simp only [complete, here, found, optional, rest, List.map_cons, ↓reduceIte, bind,
        Except.bind]

/-- An object is read as a record, if each field that must be there is, none stands twice, and all
members suit the record. -/
theorem recognises_record {members : List (String × List Char)} {text : List Char}
    (object : ObjectText .strict members text)
    (suits : ∀ member ∈ members, Suits fields given member)
    (once : ∀ field ∈ fields, (members.map (·.1)).count field.name ≤ 1)
    (absent : ∀ field ∈ fields, field.canBeAbsent = true ∨ field.name ∈ members.map (·.1)) :
    Recognises (recordReader fields) text (.record (fields.map fun field =>
      if field.name ∈ members.map (·.1) then given field.name else .absent)) := by
  obtain ⟨body, rfl, read⟩ := fieldsReader_of_objectText object suits once
  refine ⟨⟨'\x7b', body, rfl, by decide, by decide⟩, fun blank rest blanks _ => ?_⟩
  obtain ⟨left, known, blanks', gathered, found⟩ := read rest
  rw [List.cons_append, recordReader, skipBlank_append blanks (by decide)]
  simp only [found, complete_of_gathered gathered absent, closeObject_append blanks', bind,
    Except.bind]

end Record

/-! ## Documents -/

theorem document_of_recognises {read : Reader Datum} {text : String} {inner : List Char}
    {datum : Datum} (padded : Padded inner text.toList) (recognises : Recognises read inner datum) :
    document read text = .ok datum := by
  obtain ⟨before, behind, blanks, blanks', whole⟩ := padded
  have stops : Stops behind := by
    have ends := Stops.append blanks' .nil
    rwa [List.append_nil] at ends
  have nothing : skipBlank behind = [] := List.dropWhile_eq_nil_iff.2 blanks'
  rw [document, whole, recognises.reads before behind blanks stops]
  simp only [bind, Except.bind, nothing, List.isEmpty_nil, ↓reduceIte]

end FileGraph.Json
