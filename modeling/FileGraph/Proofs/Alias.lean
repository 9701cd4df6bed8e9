import FileGraph.Alias
import FileGraph.Proofs.Json.Record
import FileGraph.Proofs.Json.Refuses

/-! # Alias documents are read

An alias document may be spelled in any way that JSON allows, and may say other things besides its
aliases.

* `AliasTable.Document`: the texts of a document with a given base and given entries of `paths`.
* `AliasTable.parse_of_document`: such a text is read, and its entries are.
* `AliasTable.Declares`: what pairs of a stem and a folder some entries are for.
* `AliasTable.parse_declares`: the table has these pairs, seen from the base.
* `AliasTable.parse_oneAlias`: a further target is read, although it is not used, and so there are
  limits to it.
-/

namespace FileGraph.AliasTable

open Json (AnyValue Datum MappingText ObjectText Padded Quotes Recognises Refuses Rules Suits
  ValueText WritesNumber compactArray compactObject isWhole_digit lastValues quoted quotes_quoted
  valueReader valueText_array valueText_string writesNumber_exponent)

/-! ## Written documents -/

/-- Just one member has the key, and the text of its value is one that `writes` allows. -/
def HasMember (members : List (String × List Char)) (key : String)
    (writes : List Char → Prop) : Prop :=
  ∃ text, members.filter (·.1 == key) = [(key, text)] ∧ writes text

/-- The base is given; if there is none, no member is for it. -/
def GivesBase (members : List (String × List Char)) : Option String → Prop
  | none => ∀ member ∈ members, member.1 ≠ "baseUrl"
  | some base => HasMember members "baseUrl" (Quotes .strict · base)

section Document

variable (rules : Rules) (depth : Nat) (base : Option String)
  (entries : List (String × Json))

/-- Compiler options with a given base and given entries of `paths`. Other options have any
values. -/
def OptionsText (text : List Char) : Prop :=
  ∃ members, ObjectText .strict members text ∧ GivesBase members base ∧
    HasMember members "paths" (MappingText rules depth entries) ∧
    ∀ member ∈ members, member.1 ≠ "baseUrl" → member.1 ≠ "paths" → AnyValue member.2

/-- Documents with such compiler options. Whatever else they hold has any value. -/
def Document (text : List Char) : Prop :=
  ∃ members inner, Padded inner text ∧ ObjectText .strict members inner ∧
    HasMember members "compilerOptions" (OptionsText rules depth base entries) ∧
    ∀ member ∈ members, member.1 ≠ "compilerOptions" → AnyValue member.2

end Document

namespace HasMember

variable {members : List (String × List Char)} {key : String} {writes : List Char → Prop}
  (has : HasMember members key writes)

include has

theorem writes_of_mem {member : String × List Char} (inside : member ∈ members)
    (same : member.1 = key) : writes member.2 := by
  obtain ⟨text, only, written⟩ := has
  have found : member ∈ members.filter (·.1 == key) := List.mem_filter.2 ⟨inside, by simp [same]⟩
  rw [only, List.mem_singleton] at found
  exact found ▸ written

theorem count_eq_one : (members.map (·.1)).count key = 1 := by
  obtain ⟨text, only, -⟩ := has
  rw [List.count_eq_countP, List.countP_map, List.countP_eq_length_filter]
  exact congrArg List.length only

theorem mem_keys : key ∈ members.map (·.1) :=
  List.count_pos_iff.1 (has.count_eq_one ▸ Nat.one_pos)

end HasMember

theorem GivesBase.count_le_one {members : List (String × List Char)} {base : Option String}
    (gives : GivesBase members base) : (members.map (·.1)).count "baseUrl" ≤ 1 := by
  cases base with
  | none =>
    have absent : "baseUrl" ∉ members.map (·.1) := by
      intro inside
      obtain ⟨member, here, same⟩ := List.mem_map.1 inside
      exact gives member here same
    rw [List.count_eq_zero.2 absent]
    exact Nat.zero_le 1
  | some base => exact Nat.le_of_eq (HasMember.count_eq_one gives)

/-! ## Documents without white space -/

/-- A document with given entries of `paths`, other members in front of the compiler options. -/
def compactDocument (others : List (String × List Char)) (base : Option String)
    (paths : List (String × List Char)) : List Char :=
  compactObject (others ++ [("compilerOptions", compactObject
    ((base.map fun base => ("baseUrl", quoted base)).toList ++ [("paths", compactObject paths)]))])

theorem document_compact {rules : Rules} {depth : Nat} (base : Option String)
    {entries : List (String × Json)} {others paths : List (String × List Char)}
    (foreign : ∀ member ∈ others, member.1 ≠ "compilerOptions" ∧ AnyValue member.2)
    (mapping : MappingText rules depth entries (compactObject paths)) :
    Document rules depth base entries (compactDocument others base paths) := by
  have options : OptionsText rules depth base entries (compactObject
      ((base.map fun base => ("baseUrl", quoted base)).toList ++
        [("paths", compactObject paths)])) := by
    refine ⟨_, Json.objectText_compact (by simp), ?_, ⟨compactObject paths, ?_, mapping⟩, ?_⟩
    · cases base with
      | none => simp [GivesBase]
      | some base => exact ⟨quoted base, rfl, quotes_quoted base⟩
    · cases base with
      | none | some => rfl
    · cases base with
      | none | some => simp +contextual
  refine ⟨_, _, Json.padded_self _, Json.objectText_compact (by simp), ⟨_, ?_, options⟩, ?_⟩
  · have apart : others.filter (·.1 == "compilerOptions") = [] :=
      List.filter_eq_nil_iff.2 fun member inside => by simpa using (foreign member inside).1
    rw [List.filter_append, apart]
    rfl
  · rintro member inside isOther
    obtain inside | inside := List.mem_append.1 inside
    · exact (foreign member inside).2
    · exact absurd (congrArg Prod.fst (List.mem_singleton.1 inside)) isOther

/-! ## What is read -/

def optionFields : List Json.Field := [
  ⟨"baseUrl", Json.optionalReader Json.textReader, true⟩,
  ⟨"paths", Json.optionalReader (Json.mappingReader valueDepth), true⟩]

def documentFields : List Json.Field := [
  ⟨"compilerOptions", Json.optionalReader (Json.recordReader optionFields), true⟩]

theorem documentReader_eq : documentReader = Json.recordReader documentFields :=
  rfl

variable (base : Option String) (entries : List (String × Json))

def optionDatum (key : String) : Datum :=
  if key = "baseUrl" then base.elim .absent .text else .mapping (lastValues entries)

def optionsDatum : Datum :=
  .record [base.elim .absent .text, .mapping (lastValues entries)]

variable {base entries}

theorem head?_of_quotes {text : List Char} {s : String} (quotes : Quotes .strict text s) :
    text.head? ≠ some 'n' := by
  obtain ⟨inner, -, rfl⟩ := quotes
  simp

theorem head?_of_objectText {members : List (String × List Char)} {text : List Char}
    (object : ObjectText .strict members text) : text.head? ≠ some 'n' := by
  cases object with
  | empty | members => simp

theorem recognises_options {text : List Char}
    (options : OptionsText Rules.strict valueDepth base entries text) :
    Recognises (Json.recordReader optionFields) text (optionsDatum base entries) := by
  obtain ⟨members, object, gives, paths, others⟩ := options
  -- A member is the base, the paths or something that is passed over.
  have suits : ∀ member ∈ members, Suits optionFields (optionDatum base entries) member := by
    intro member inside
    by_cases isBase : member.1 = "baseUrl"
    · cases base with
      | none => exact absurd isBase (gives member inside)
      | some base =>
        have quotes := gives.writes_of_mem inside isBase
        simpa [Suits, optionFields, optionDatum, isBase] using
          (Json.recognises_text quotes).optional (head?_of_quotes quotes)
    · by_cases isPaths : member.1 = "paths"
      · have mapping := paths.writes_of_mem inside isPaths
        obtain ⟨_, written, -⟩ := id mapping
        simpa [Suits, optionFields, optionDatum, isPaths] using
          (Json.recognises_mapping mapping).optional (head?_of_objectText written)
      · simpa [Suits, optionFields, isBase, isPaths, Ne.symm isBase, Ne.symm isPaths] using
          others member inside isBase isPaths
  have once : ∀ field ∈ optionFields, (members.map (·.1)).count field.name ≤ 1 := by
    simp only [optionFields, List.forall_mem_cons]
    exact ⟨gives.count_le_one, Nat.le_of_eq paths.count_eq_one, List.forall_mem_nil _⟩
  have datum : optionsDatum base entries = .record (optionFields.map fun field =>
      if field.name ∈ members.map (·.1) then optionDatum base entries field.name else .absent) := by
    cases base with
    | none => simp [optionFields, optionsDatum, optionDatum, paths.mem_keys]
    | some base =>
      have mem_keys := HasMember.mem_keys gives
      simp [optionFields, optionsDatum, optionDatum, paths.mem_keys, mem_keys]
  rw [datum]
  exact Json.recognises_record object suits once (by simp [optionFields])

theorem recognises_document {members : List (String × List Char)} {text : List Char}
    (object : ObjectText .strict members text)
    (options : HasMember members "compilerOptions"
      (OptionsText Rules.strict valueDepth base entries))
    (others : ∀ member ∈ members, member.1 ≠ "compilerOptions" → AnyValue member.2) :
    Recognises documentReader text (.record [optionsDatum base entries]) := by
  have suits : ∀ member ∈ members,
      Suits documentFields (fun _ => optionsDatum base entries) member := by
    intro member inside
    by_cases isOptions : member.1 = "compilerOptions"
    · have written := options.writes_of_mem inside isOptions
      obtain ⟨_, object, -⟩ := id written
      simpa [Suits, documentFields, isOptions] using
        (recognises_options written).optional (head?_of_objectText object)
    · simpa [Suits, documentFields, isOptions, Ne.symm isOptions] using
        others member inside isOptions
  have once : ∀ field ∈ documentFields, (members.map (·.1)).count field.name ≤ 1 :=
    List.forall_mem_singleton.2 (Nat.le_of_eq options.count_eq_one)
  have recognises := Json.recognises_record object suits once (by simp [documentFields])
  simpa [documentReader_eq, documentFields, options.mem_keys] using recognises

theorem parse_of_document {text : String}
    (document : Document Rules.strict valueDepth base entries text.toList) :
    parse text = .ok ((lastValues entries).filterMap (declared? base)) := by
  obtain ⟨members, inner, padded, object, options, others⟩ := document
  rw [parse, Json.document_of_recognises padded (recognises_document object options others)]
  cases base with
  | none | some => rfl

/-! ## Pairs of a stem and a folder -/

/-- A base by which folders are named: neither empty nor the project itself, without the piece `./`
in front and without a slash behind. -/
structure IsBase (base : String) : Prop where
  nonempty : base ≠ ""
  notHere : base ≠ "."
  bare : ¬ ['.', '/'] <+: base.toList
  closed : base.toList.getLast? ≠ some '/'

/-- A base may be written with pieces `./` in front of it and slashes behind it. -/
inductive WritesBase : Option String → Option String → Prop where
  | none : WritesBase none none
  | some {base written : String} (before behind : Nat) : IsBase base →
      written.toList = (List.replicate before ['.', '/']).flatten ++
        (base.toList ++ List.replicate behind '/') →
      WritesBase (some base) (some written)

/-- Entries that declare, in their order, that stems stand for folders. Between them there may be
entries that give no text in the first place of an array. -/
inductive Declares : List (String × Json) → List (String × String) → Prop where
  | nil : Declares [] []
  | pair {stem folder : String} {more : List Json} {entries : List (String × Json)}
      {pairs : List (String × String)} : stem ≠ "" → ¬ ['.', '/'] <+: folder.toList →
      Declares entries pairs →
      Declares ((stem ++ "/*", .array (.string (folder ++ "/*") :: more)) :: entries)
        ((stem, folder) :: pairs)
  | skipped {key : String} {value : Json} {entries : List (String × Json)}
      {pairs : List (String × String)} : (∀ text more, value ≠ .array (.string text :: more)) →
      Declares entries pairs → Declares ((key, value) :: entries) pairs

/-- A folder, seen from the base. -/
def fromBase (base : Option String) (folder : String) : String :=
  base.elim folder (· ++ "/" ++ folder)

theorem trimStar_append (text : List Char) : trimStar (text ++ ['/', '*']) = text := by
  simp [trimStar]

theorem trimHere_append (before : Nat) (text : List Char) :
    Text.trimHere ((List.replicate before ['.', '/']).flatten ++ text) = Text.trimHere text := by
  induction before with
  | zero => rfl
  | succ before ih => simpa [List.replicate_succ, Text.trimHere] using ih

theorem trimSlashes_append {text : List Char} (closed : text.getLast? ≠ some '/') (behind : Nat) :
    trimSlashes (text ++ List.replicate behind '/') = text := by
  have slashes : ∀ c ∈ List.replicate behind '/', (c == '/') = true :=
    fun c inside => beq_iff_eq.2 (List.eq_of_mem_replicate inside)
  rw [trimSlashes, List.reverse_append, List.reverse_replicate, List.dropWhile_append_of_pos slashes]
  rw [← List.head?_reverse] at closed
  cases back : text.reverse with
  | nil => simpa using back
  | cons c rest =>
    rw [back] at closed
    have apart : (c == '/') = false := by simpa using closed
    rw [List.dropWhile_cons_of_neg (by simp [apart]), ← back, List.reverse_reverse]

/-- Neither the pieces in front of a base nor the slashes behind it count. -/
theorem trim_written {base written : String} (isBase : IsBase base) {before behind : Nat}
    (shape : written.toList = (List.replicate before ['.', '/']).flatten ++
      (base.toList ++ List.replicate behind '/')) :
    trimSlashes (Text.trimHere written.toList) = base.toList := by
  have bare : ¬ ['.', '/'] <+: base.toList ++ List.replicate behind '/' := by
    rintro ⟨rest, same⟩
    cases letters : base.toList with
    | nil => exact isBase.nonempty (String.toList_eq_nil_iff.1 letters)
    | cons c more =>
      rw [letters, List.cons_append, List.cons_append] at same
      obtain ⟨rfl, later⟩ := List.cons.inj same
      cases more with
      | nil => exact isBase.notHere (String.toList_inj.1 letters)
      | cons d more =>
        obtain ⟨rfl, -⟩ := List.cons.inj later
        exact isBase.bare ⟨more, letters.symm⟩
  rw [shape, trimHere_append, Text.trimHere_of_bare bare, trimSlashes_append isBase.closed]

theorem declared?_alias {base written : Option String} (writes : WritesBase base written)
    {stem folder : String} (nonempty : stem ≠ "") (bare : ¬ ['.', '/'] <+: folder.toList)
    (more : List Json) :
    declared? written (stem ++ "/*", .array (.string (folder ++ "/*") :: more)) =
      some ⟨stem, fromBase base folder⟩ := by
  have stem_eq : trimStar (stem ++ "/*").toList = stem.toList := by
    rw [String.toList_append]
    exact trimStar_append _
  have folder_eq : Text.trimHere (trimStar (folder ++ "/*").toList) = folder.toList := by
    rw [String.toList_append]
    exact (congrArg Text.trimHere (trimStar_append _)).trans (Text.trimHere_of_bare bare)
  have given : stem.toList ≠ [] := fun empty => nonempty (String.toList_eq_nil_iff.1 empty)
  simp only [declared?, firstText?, bind, Option.bind, stem_eq, folder_eq, given, ↓reduceIte,
    String.ofList_toList]
  cases writes with
  | none => rfl
  | @some base written before behind isBase shape =>
    simp only [Option.map_some, trim_written isBase shape]
    split
    next none => cases none
    next empty => exact absurd (String.toList_eq_nil_iff.1 (Option.some.inj empty)) isBase.nonempty
    next here => exact absurd (String.toList_inj.1 (Option.some.inj here)) isBase.notHere
    next same =>
      obtain rfl := Option.some.inj same
      rw [String.ofList_toList]
      rfl

theorem declared?_skipped (base : Option String) (key : String) {value : Json}
    (textless : ∀ text more, value ≠ .array (.string text :: more)) :
    declared? base (key, value) = none := by
  have none : firstText? value = none := by
    rw [firstText?]
    rintro text more rfl
    exact textless text more rfl
  simp only [declared?, none, bind, Option.bind]

/-- An alias document is read: the table has a pair for each entry that declares one, in the order
of the entries, and the folders are those seen from the base. -/
theorem parse_declares {base written : Option String} {entries : List (String × Json)}
    {pairs : List (String × String)} {text : String}
    (document : Document Rules.strict valueDepth written entries text.toList)
    (writes : WritesBase base written) (declares : Declares (lastValues entries) pairs) :
    parse text = .ok (pairs.map fun pair => ⟨pair.1, fromBase base pair.2⟩) := by
  rw [parse_of_document document]
  congr 1
  generalize lastValues entries = entries at declares
  induction declares with
  | nil => rfl
  | pair nonempty bare _ ih =>
    rw [List.filterMap_cons_some (declared?_alias writes nonempty bare _), ih, List.map_cons]
  | skipped textless _ ih => rw [List.filterMap_cons_none (declared?_skipped _ _ textless), ih]

theorem parse_single (key target : String) :
    parse (String.ofList (compactDocument [] none [(key, compactArray [quoted target])])) =
      .ok ([(key, .array [.string target])].filterMap (declared? none)) := by
  have document : Document .strict valueDepth none [(key, .array [.string target])]
      (compactDocument [] none [(key, compactArray [quoted target])]) := by
    refine document_compact none (List.forall_mem_nil _)
      ⟨_, Json.objectText_compact (List.cons_ne_nil _ _), .cons ⟨rfl, ?_⟩ .nil⟩
    exact valueText_array (List.cons_ne_nil _ _) (.cons (valueText_string _ target) .nil)
  rw [← String.toList_ofList (l := compactDocument _ _ _)] at document
  exact parse_of_document document

def webPaths : List (String × List Char) := [
  ("@app/*", compactArray [quoted "app/*", "1e3".toList]),
  ("odd", "7".toList),
  ("@lib/*", compactArray [quoted "lib/*"])]

def webEntries : List (String × Json) := [
  ("@app/*", .array [.string "app/*", .number "1e3"]),
  ("odd", .number "7"),
  ("@lib/*", .array [.string "lib/*"])]

def web : String :=
  "\x7b\"extends\":\"base\",\"compilerOptions\":\x7b\"baseUrl\":\"./web/\",\"paths\":" ++
    "\x7b\"@app/*\":[\"app/*\",1e3],\"odd\":7,\"@lib/*\":[\"lib/*\"]\x7d\x7d\x7d"

theorem document_web :
    Document Rules.strict valueDepth (some "./web/") webEntries web.toList := by
  have text : web.toList =
      compactDocument [("extends", quoted "base")] (some "./web/") webPaths := by decide +kernel
  have thousand : WritesNumber ⟨false, ['1'], none, some (false, ['3'])⟩ "1e3".toList :=
    writesNumber_exponent rfl ⟨List.cons_ne_nil _ _, List.forall_mem_singleton.2 rfl⟩
  have seven : WritesNumber ⟨false, ['7'], none, none⟩ "7".toList :=
    .intro (isWhole_digit (by decide)) .none .none
  have inRange : Rules.strict.inRange ⟨false, ['1'], none, some (false, ['3'])⟩ ∧
      Rules.strict.inRange ⟨false, ['7'], none, none⟩ := by
    unfold Rules.strict
    decide
  rw [text]
  refine document_compact _ ?_ ⟨_, Json.objectText_compact (by decide), ?_⟩
  · exact List.forall_mem_singleton.2 ⟨by decide, 0, .string "base", valueText_string 0 "base"⟩
  · exact .cons ⟨rfl, valueText_array (by simp)
      (.cons (valueText_string _ _) (.cons (.number thousand inRange.1) .nil))⟩
      (.cons ⟨rfl, .number seven inRange.2⟩
        (.cons ⟨rfl, valueText_array (by simp) (.cons (valueText_string _ _) .nil)⟩ .nil))

theorem declares_web : Declares (lastValues webEntries) [("@app", "app"), ("@lib", "lib")] := by
  have each : lastValues webEntries = webEntries := rfl
  have odd : ∀ text more, Json.number "7" ≠ .array (.string text :: more) := nofun
  rw [each]
  exact @Declares.pair "@app" "app" _ _ _ (by decide) (by decide)
    (.skipped odd (@Declares.pair "@lib" "lib" _ _ _ (by decide) (by decide) .nil))

theorem parse_declares_web :
    Document Rules.strict valueDepth (some "./web/") webEntries web.toList ∧
      WritesBase (some "web") (some "./web/") ∧
      Declares (lastValues webEntries) [("@app", "app"), ("@lib", "lib")] ∧
      parse web = .ok [⟨"@app", "web/app"⟩, ⟨"@lib", "web/lib"⟩] := by
  have writes : WritesBase (some "web") (some "./web/") :=
    .some 1 1 ⟨by decide, by decide, by decide, by decide⟩ (by decide)
  exact ⟨document_web, writes, declares_web, parse_declares document_web writes declares_web⟩

/-! ## Beyond the limits

What stands behind the first target of an entry is not used, but it is read.
-/

/-- A document with one entry, the targets of which go on with `further`. -/
def oneAlias (key target : String) (further : List Char) : List Char :=
  compactDocument [] none [(key, compactArray [quoted target, further])]

theorem document_oneAlias {rules : Rules} {depth : Nat} (key target : String)
    {value : Json} {further : List Char} (written : ValueText rules depth value further) :
    Document rules (depth + 1) none [(key, .array [.string target, value])]
      (oneAlias key target further) := by
  refine document_compact none (List.forall_mem_nil _)
    ⟨_, Json.objectText_compact (List.cons_ne_nil _ _), .cons ⟨rfl, ?_⟩ .nil⟩
  exact valueText_array (List.cons_ne_nil _ _)
    (.cons (valueText_string depth target) (.cons written .nil))

/-- A further target with which something is wrong is a problem of the document. -/
theorem parse_oneAlias (key target : String) {further : List Char} {problem : Json.Problem}
    {depth : Nat} (limit : valueDepth = depth + 1)
    (refuses : Refuses (valueReader depth) further problem) :
    parse (String.ofList (oneAlias key target further)) = .error problem := by
  have written : ValueText .strict depth (.string target) (quoted target) :=
    valueText_string depth target
  have entry : Refuses (valueReader valueDepth) (compactArray [quoted target, further]) problem :=
    limit ▸ refuses.array (Json.recognises_value written)
  have options : Refuses (Json.recordReader optionFields)
      (compactObject [("paths", compactObject [(key, compactArray [quoted target, further])])])
      problem :=
    Refuses.record rfl ((entry.mapping key).optional (by simp [compactObject]))
  have whole : Refuses (Json.recordReader documentFields) (oneAlias key target further) problem :=
    Refuses.record rfl (options.optional (by simp [compactObject]))
  rw [← String.toList_ofList (l := oneAlias key target further)] at whole
  rw [parse, documentReader_eq, whole.document]
  rfl

/-- Arrays, each the only item of the next. -/
def nested : (depth : Nat) → Json
  | 0 => .array []
  | depth + 1 => .array [nested depth]

def nestedText (depth : Nat) : List Char :=
  List.replicate (depth + 1) '[' ++ List.replicate (depth + 1) ']'

theorem valueText_nested (rules : Rules) (depth : Nat) :
    ValueText rules (depth + 1) (nested depth) (nestedText depth) := by
  induction depth with
  | zero => exact .array (@Json.ArrayText.empty [] (List.forall_mem_nil _)) .nil
  | succ depth ih =>
    have text : nestedText (depth + 1) = compactArray [nestedText depth] := by
      simp [nestedText, compactArray, Text.joinWith, List.replicate_succ, ← List.replicate_succ']
    rw [text]
    exact valueText_array (List.cons_ne_nil _ _) (.cons ih .nil)

def tooLarge : String :=
  "\x7b\"compilerOptions\":\x7b\"paths\":\x7b\"p/*\":[\"d/*\",1e999]\x7d\x7d\x7d"

def halved : String :=
  "\x7b\"compilerOptions\":\x7b\"paths\":\x7b\"p/*\":[\"d/*\",\"\\udc00\"]\x7d\x7d\x7d"

def tooDeep : String :=
  String.ofList (oneAlias "p/*" "d/*" (nestedText 123))

/-- A number beyond the largest float, half of a pair of code units and arrays nested too deep stand
behind the first target of an alias. None of the documents is read. -/
theorem parse_beyond_limits :
    let entries (value : Json) := [("p/*", Json.array [.string "d/*", value])]
    (∀ value, Declares (lastValues (entries value)) [("p", "d")]) ∧
      (Document .lax valueDepth none (entries (.number "1e999")) tooLarge.toList ∧
        parse tooLarge = .error .malformed) ∧
      (Document .lax valueDepth none (entries (.string "\uFFFD")) halved.toList ∧
        parse halved = .error .malformed) ∧
      Document .strict (valueDepth + 1) none (entries (nested 123)) tooDeep.toList ∧
        parse tooDeep = .error .malformed := by
  have writes : WritesNumber ⟨false, ['1'], none, some (false, "999".toList)⟩ "1e999".toList :=
    writesNumber_exponent rfl ⟨by decide, List.all_eq_true.1 rfl⟩
  have unit : Json.WritesUnit ['d', 'c', '0', '0'] 0xDC00 :=
    @Json.WritesUnit.intro 'd' 'c' '0' '0' 13 12 0 0 rfl rfl rfl rfl
  have half : Quotes .lax "\"\\udc00\"".toList "\uFFFD" :=
    ⟨_, .lone trivial unit (.inr rfl) .nil, rfl⟩
  have large : tooLarge = String.ofList (oneAlias "p/*" "d/*" "1e999".toList) := rfl
  have lone : halved = String.ofList (oneAlias "p/*" "d/*" "\"\\udc00\"".toList) := rfl
  refine ⟨fun value => ?_, ⟨?_, ?_⟩, ⟨?_, ?_⟩, ?_, ?_⟩
  · exact @Declares.pair "p" "d" [value] _ _ (by decide) (by decide) .nil
  · rw [large, String.toList_ofList]
    exact document_oneAlias "p/*" "d/*" (.number writes trivial)
  · rw [large]
    exact parse_oneAlias "p/*" "d/*" rfl (Json.refuses_tooLarge writes (by decide) 123)
  · rw [lone, String.toList_ofList]
    exact document_oneAlias "p/*" "d/*" (.string half)
  · rw [lone]
    exact parse_oneAlias "p/*" "d/*" rfl (Json.refuses_lone unit rfl 123 ['"'])
  · rw [tooDeep, String.toList_ofList]
    exact document_oneAlias "p/*" "d/*" (valueText_nested .strict 123)
  · exact parse_oneAlias "p/*" "d/*" rfl (Json.refuses_tooDeep 123 _)

end FileGraph.AliasTable
