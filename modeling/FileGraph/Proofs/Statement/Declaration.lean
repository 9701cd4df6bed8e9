import FileGraph.Proofs.Statement.Quotes

/-! # Declarations of scripts

The statements of a script that name another module, as they are written:

* `Identifier`, `Clause`: names, and what is imported or exported.
* `Declaration`: a statement of one of the four forms, with its quotation marks and its path.
* `written`: the references that a list of declarations writes.
* `of_mem_spaced_statement`, `mem_spaced_of_alone`: the words in front of the path of an import or an
  export.
-/

namespace FileGraph.Statement.Script

open Text

/-! ## Syntax -/

/-- A letter, a digit, `_` or `$`. -/
def isNameChar (c : Char) : Bool :=
  c.isAlphanum || c == '_' || c == '$'

/-- A name written in ASCII that is none of the words statements are made of. -/
structure Identifier where
  text : List Char
  begins : text.head?.any (!·.isDigit) = true
  letters : text.all isNameChar = true
  free : text ∉ [importWord, exportWord, requireWord, fromWord]

/-- White space, line feeds included. -/
abbrev Gap : Type :=
  { gap : List Char // gap.all isBlankChar = true }

/-- A name in braces. -/
structure Entry where
  before : Gap
  name : Identifier
  after : Gap

def Entry.text (entry : Entry) : List Char :=
  entry.before.1 ++ (entry.name.text ++ entry.after.1)

def asWord : List Char := ['a', 's']

/-- What is imported or exported. -/
inductive Clause where
  /-- `*`. -/
  | all
  /-- `* as name`. -/
  | allAs (name : Identifier)
  /-- `{ name, …, name }`, perhaps with a comma behind the last name. -/
  | named (first : Entry) (others : List Entry) (comma : Option Gap)

namespace Clause

def text : Clause → List Char
  | all => ['*']
  | allAs name => '*' :: ' ' :: (asWord ++ ' ' :: name.text)
  | named first others comma =>
    '\x7b' :: (first.text ++ (others.flatMap (fun entry => ',' :: entry.text) ++
      (comma.toList.flatMap (fun gap => ',' :: gap.1) ++ ['\x7d'])))

end Clause

/-- The word an import or an export begins with. -/
def statementWord (exports : Bool) : List Char :=
  if exports then exportWord else importWord

def callWord (requires : Bool) : List Char :=
  if requires then requireWord else importWord

def constWord : List Char := ['c', 'o', 'n', 's', 't']

/-- What stands in front of the path, up to its quotation mark. -/
inductive Opening where
  /-- `import … from` or `export … from`. -/
  | statement (exports : Bool) (clause : Clause)
  /-- `const name = require(` or `const name = import(`. -/
  | call (requires : Bool) (name : Identifier)

namespace Opening

/-- What stands in front of the statement itself. -/
def prelude : Opening → List Char
  | statement _ _ => []
  | call _ name => constWord ++ ' ' :: (name.text ++ [' ', '=', ' '])

/-- The statement up to the quotation mark. -/
def beginning : Opening → List Char
  | statement exports clause =>
    statementWord exports ++ ' ' :: (clause.text ++ ' ' :: (fromWord ++ [' ']))
  | call requires _ => callWord requires ++ ['(']

/-- The statement behind the second quotation mark. -/
def closing : Opening → List Char
  | statement _ _ => []
  | call _ _ => [')']

def text (opening : Opening) : List Char :=
  opening.prelude ++ opening.beginning

def kind : Opening → Kind
  | statement exports _ => if exports then .export else .import
  | call requires _ => if requires then .require else .dynamicImport

end Opening

/-- A statement on lines of its own, ended by a semicolon and a line feed. -/
structure Declaration where
  opening : Opening
  mark : Char
  path : List Char
  quotes : isQuote mark = true
  filled : path ≠ []
  inside : path.all (fun c => !isQuote c && c != '\n') = true

def Declaration.text (declaration : Declaration) : List Char :=
  declaration.opening.text ++ declaration.mark :: (declaration.path ++
    declaration.mark :: (declaration.opening.closing ++ [';', '\n']))

/-- The references that declarations write, the first of them beginning on a line of a given number:
one for each, on the line of its path. -/
def written : (number : Nat) → List Declaration → List Reference
  | _, [] => []
  | number, declaration :: later =>
    ⟨String.ofList declaration.path, declaration.opening.kind,
      number + declaration.opening.text.count '\n'⟩ ::
        written (number + declaration.text.count '\n') later

/-! ## Characters -/

theorem Identifier.plain (name : Identifier) : ∀ c ∈ name.text, isNameChar c = true :=
  List.all_eq_true.1 name.letters

theorem Gap.blank (gap : Gap) : ∀ c ∈ gap.1, isBlankChar c = true :=
  List.all_eq_true.1 gap.2

theorem Declaration.plain (declaration : Declaration) :
    ∀ c ∈ declaration.path, isQuote c = false ∧ c ≠ '\n' := by
  simpa using declaration.inside

theorem toNat_lt_of_isNameChar {c : Char} (fits : isNameChar c = true) : c.toNat < 128 := by
  simp only [isNameChar, Bool.or_eq_true, beq_iff_eq] at fits
  obtain (letter | rfl) | rfl := fits
  · exact toNat_lt_of_isAlphanum letter
  · decide
  · decide

theorem isNameChar_eq_false_of_isBlankChar {c : Char} (blank : isBlankChar c = true) :
    isNameChar c = false := by
  rw [Bool.eq_false_iff]
  intro fits
  have ascii : ∀ n < 128, isNameChar (Char.ofNat n) = true → isBlankChar (Char.ofNat n) = false := by
    decide
  have solid := forall_ascii (p := fun c => isNameChar c = true → isBlankChar c = false) ascii
    (toNat_lt_of_isNameChar fits) fits
  rw [blank] at solid
  cases solid

/-- Of the characters of a name, `$` alone does not stop a word. -/
theorem eq_dollar_of_isNameChar {c : Char} (fits : isNameChar c = true)
    (stops : isWordChar c = false) : c = '$' := by
  simp only [isNameChar, Bool.or_eq_true, beq_iff_eq] at fits
  obtain (letter | rfl) | dollar := fits
  · rw [isWordChar_of_isAlphanum letter] at stops
    cases stops
  · exact absurd stops (by decide)
  · exact dollar

theorem asWord_plain : ∀ c ∈ asWord, isNameChar c = true :=
  List.all_iff_forall_prop.1 (by decide)

theorem fromWord_plain : ∀ c ∈ fromWord, isNameChar c = true :=
  List.all_iff_forall_prop.1 (by decide)

theorem statementWord_plain (exports : Bool) : ∀ c ∈ statementWord exports, isNameChar c = true := by
  cases exports <;> exact List.all_iff_forall_prop.1 (by decide)

theorem callWord_plain (requires : Bool) : ∀ c ∈ callWord requires, isNameChar c = true := by
  cases requires <;> exact List.all_iff_forall_prop.1 (by decide)

section

variable {p : Char → Prop} (names : ∀ c, isNameChar c = true → p c)
  (blanks : ∀ c, isBlankChar c = true → p c)

include names blanks

theorem Entry.forall_mem_text (entry : Entry) : ∀ c ∈ entry.text, p c := by
  simp only [Entry.text, List.forall_mem_append]
  exact ⟨fun c member => blanks c (entry.before.blank c member),
    fun c member => names c (entry.name.plain c member),
    fun c member => blanks c (entry.after.blank c member)⟩

theorem Clause.forall_mem_text (marks : ∀ c ∈ ['*', '\x7b', ',', '\x7d'], p c) (clause : Clause) :
    ∀ c ∈ clause.text, p c := by
  have star := marks '*' (by simp)
  have opened := marks '\x7b' (by simp)
  have comma := marks ',' (by simp)
  have closed := marks '\x7d' (by simp)
  have blank := blanks ' ' (by decide)
  cases clause with
  | all => simpa [text] using star
  | allAs name =>
    simp only [text, List.forall_mem_cons, List.forall_mem_append]
    exact ⟨star, blank, fun c member => names c (asWord_plain c member), blank,
      fun c member => names c (name.plain c member)⟩
  | named first others last =>
    have entries : ∀ c ∈ others.flatMap fun entry => ',' :: entry.text, p c := by
      intro c member
      obtain ⟨entry, -, inside⟩ := List.mem_flatMap.1 member
      exact List.forall_mem_cons.2 ⟨comma, entry.forall_mem_text names blanks⟩ c inside
    have trailing : ∀ c ∈ last.toList.flatMap fun gap => ',' :: gap.1, p c := by
      intro c member
      obtain ⟨gap, -, inside⟩ := List.mem_flatMap.1 member
      exact List.forall_mem_cons.2 ⟨comma, fun c own => blanks c (Gap.blank gap c own)⟩ c inside
    simp only [text, List.forall_mem_cons, List.forall_mem_append]
    exact ⟨opened, first.forall_mem_text names blanks, entries, trailing, closed, by simp⟩

end

theorem apart_of_isNameChar {c : Char} (fits : isNameChar c = true) : isQuote c = false ∧ c ≠ ';' := by
  refine ⟨?_, ?_⟩
  · rw [Bool.eq_false_iff]
    intro quote
    obtain rfl | rfl : c = '\'' ∨ c = '"' := by simpa [isQuote] using quote
    all_goals exact absurd fits (by decide)
  · rintro rfl
    exact absurd fits (by decide)

theorem Clause.plain (clause : Clause) : ∀ c ∈ clause.text, isQuote c = false ∧ c ≠ ';' := by
  refine Clause.forall_mem_text (fun c => apart_of_isNameChar) ?_
    (List.all_iff_forall_prop.1 (by decide)) clause
  intro c blank
  refine ⟨isQuote_eq_false_of_isBlankChar blank, ?_⟩
  rintro rfl
  exact absurd blank (by decide)

theorem Opening.unquoted (opening : Opening) : ∀ c ∈ opening.text, isQuote c = false := by
  cases opening with
  | statement exports clause =>
    have word : ∀ c ∈ statementWord exports, isQuote c = false :=
      fun c member => (apart_of_isNameChar (statementWord_plain exports c member)).1
    simp only [text, prelude, beginning, List.nil_append, List.forall_mem_append,
      List.forall_mem_cons]
    exact ⟨word, by decide, fun c member => (clause.plain c member).1, by decide, fromWord_unquoted,
      by decide, by simp⟩
  | call requires name =>
    have word : ∀ c ∈ callWord requires, isQuote c = false :=
      fun c member => (apart_of_isNameChar (callWord_plain requires c member)).1
    have first : ∀ c ∈ constWord, isQuote c = false := List.all_iff_forall_prop.1 (by decide)
    simp only [text, prelude, beginning, List.forall_mem_append, List.forall_mem_cons]
    exact ⟨⟨first, by decide, fun c member => (apart_of_isNameChar (name.plain c member)).1,
      by decide, by decide, by decide, by simp⟩, word, by decide, by simp⟩

/-! ## Words -/

/-- The words of a text that white space follows, with `run` in front of the text; `$` is a letter
as in a name. -/
def spaced : (run : List Char) → List Char → List (List Char)
  | _, [] => []
  | run, c :: rest =>
    if isNameChar c then spaced (run ++ [c]) rest
    else if isBlankChar c then run :: spaced [] rest
    else spaced [] rest

theorem spaced_append {name : List Char} (plain : ∀ c ∈ name, isNameChar c = true)
    (run rest : List Char) : spaced run (name ++ rest) = spaced (run ++ name) rest := by
  induction name generalizing run with
  | nil => rw [List.nil_append, List.append_nil]
  | cons c name ih =>
    rw [List.forall_mem_cons] at plain
    rw [List.cons_append, spaced, if_pos plain.1, ih plain.2, List.append_assoc, List.singleton_append]

theorem spaced_blank {blank : Char} (isBlank : isBlankChar blank = true) (run rest : List Char) :
    spaced run (blank :: rest) = run :: spaced [] rest := by
  simp [spaced, isBlank, isNameChar_eq_false_of_isBlankChar isBlank]

/-- Neither a letter nor white space. -/
def isStop (c : Char) : Bool :=
  !isNameChar c && !isBlankChar c

theorem spaced_stop {c : Char} (stop : isStop c = true) (run rest : List Char) :
    spaced run (c :: rest) = spaced [] rest := by
  simp_all [spaced, isStop]

theorem of_mem_spaced_gap (gap : Gap) {word rest : List Char} (filled : word ≠ [])
    (member : word ∈ spaced [] (gap.1 ++ rest)) : word ∈ spaced [] rest := by
  obtain ⟨gap, blanks⟩ := gap
  induction gap with
  | nil => exact member
  | cons c gap ih =>
    rw [List.all_cons, Bool.and_eq_true] at blanks
    rw [List.cons_append, spaced_blank blanks.1] at member
    exact ih blanks.2 ((List.mem_cons.1 member).resolve_left filled)

/-- The name of an entry is a word with white space behind it, if a gap follows it. -/
theorem Entry.of_mem_spaced {entry : Entry} {word rest : List Char} {stop : Char}
    (stops : isStop stop = true) (filled : word ≠ [])
    (member : word ∈ spaced [] (entry.text ++ stop :: rest)) :
    (entry.after.1 ≠ [] ∧ entry.name.text = word) ∨ word ∈ spaced [] rest := by
  rw [text, List.append_assoc] at member
  replace member := of_mem_spaced_gap entry.before filled member
  rw [List.append_assoc, spaced_append entry.name.plain, List.nil_append] at member
  obtain ⟨before, name, after, blanks⟩ := entry
  cases after with
  | nil =>
    rw [List.nil_append, spaced_stop stops] at member
    exact .inr member
  | cons c gap =>
    rw [List.all_cons, Bool.and_eq_true] at blanks
    rw [List.cons_append, spaced_blank blanks.1] at member
    cases List.mem_cons.1 member with
    | inl own => exact .inl ⟨List.cons_ne_nil _ _, own.symm⟩
    | inr later =>
      have behind := of_mem_spaced_gap ⟨gap, blanks.2⟩ filled later
      rw [spaced_stop stops] at behind
      exact .inr behind

/-- The names of a clause with white space behind them. -/
def Clause.spacedNames : Clause → List Identifier
  | all => []
  | allAs name => [name]
  | named first others _ => ((first :: others).filter (·.after.1 ≠ [])).map Entry.name

theorem of_mem_spaced_entries {entries : List Entry} {word rest : List Char} {stop : Char}
    (stops : isStop stop = true) (filled : word ≠ [])
    (member : word ∈ spaced [] (entries.flatMap (fun entry => ',' :: entry.text) ++ stop :: rest)) :
    (∃ entry ∈ entries, entry.after.1 ≠ [] ∧ entry.name.text = word) ∨ word ∈ spaced [] rest := by
  induction entries with
  | nil =>
    rw [List.flatMap_nil, List.nil_append, spaced_stop stops] at member
    exact .inr member
  | cons entry entries ih =>
    -- The comma of the next entry ends this one, and `stop` ends the last.
    have shape : ∃ c later, isStop c = true ∧
        entries.flatMap (fun entry => ',' :: entry.text) ++ stop :: rest = c :: later := by
      cases entries with
      | nil => exact ⟨stop, rest, stops, rfl⟩
      | cons second entries => exact ⟨',', _, by decide, rfl⟩
    obtain ⟨c, later, isStop, shape⟩ := shape
    rw [shape] at ih
    rw [List.flatMap_cons, List.append_assoc, List.cons_append, spaced_stop (by decide),
      shape] at member
    cases entry.of_mem_spaced isStop filled member with
    | inl own => exact .inl ⟨entry, List.mem_cons_self, own⟩
    | inr behind =>
      rw [spaced_stop isStop] at ih
      exact (ih behind).imp_left fun ⟨entry, known, own⟩ => ⟨entry, List.mem_cons_of_mem _ known, own⟩

theorem of_mem_spaced_closing {comma : Option Gap} {word rest : List Char} (filled : word ≠ [])
    (member : word ∈ spaced [] (comma.toList.flatMap (fun gap => ',' :: gap.1) ++ '\x7d' :: rest)) :
    word ∈ spaced [] rest := by
  cases comma with
  | none =>
    rwa [Option.toList_none, List.flatMap_nil, List.nil_append, spaced_stop (by decide)] at member
  | some gap =>
    rw [Option.toList_some, List.flatMap_singleton, List.cons_append,
      spaced_stop (by decide)] at member
    have behind := of_mem_spaced_gap gap filled member
    rwa [spaced_stop (by decide)] at behind

theorem Clause.of_mem_spaced {clause : Clause} {word rest : List Char} (filled : word ≠ [])
    (member : word ∈ spaced [] (clause.text ++ ' ' :: rest)) :
    word = asWord ∨ (∃ name ∈ clause.spacedNames, name.text = word) ∨ word ∈ spaced [] rest := by
  have blank : isBlankChar ' ' = true := by decide
  cases clause with
  | all =>
    rw [text, List.singleton_append, spaced_stop (by decide), spaced_blank blank] at member
    exact .inr (.inr ((List.mem_cons.1 member).resolve_left filled))
  | allAs name =>
    rw [text, List.cons_append, spaced_stop (by decide), List.cons_append, spaced_blank blank,
      List.append_assoc, spaced_append asWord_plain, List.cons_append, spaced_blank blank,
      spaced_append name.plain, spaced_blank blank] at member
    simp only [List.nil_append, List.mem_cons, filled, false_or] at member
    simpa [spacedNames, eq_comm] using member
  | named first others comma =>
    have shape : ∃ c later, isStop c = true ∧
        comma.toList.flatMap (fun gap => ',' :: gap.1) ++ '\x7d' :: ' ' :: rest = c :: later := by
      cases comma with
      | none => exact ⟨'\x7d', _, by decide, rfl⟩
      | some gap => exact ⟨',', _, by decide, rfl⟩
    obtain ⟨c, later, isStop, shape⟩ := shape
    -- A comma in front of the first entry changes nothing.
    have all : spaced [] ((named first others comma).text ++ ' ' :: rest) =
        spaced [] ((first :: others).flatMap (fun entry => ',' :: entry.text) ++ c :: later) := by
      rw [← shape, text, List.cons_append, spaced_stop (by decide), List.flatMap_cons,
        List.cons_append, List.cons_append, spaced_stop (by decide)]
      simp only [List.append_assoc, List.singleton_append]
    rw [all] at member
    cases of_mem_spaced_entries isStop filled member with
    | inl own =>
      obtain ⟨entry, known, after, same⟩ := own
      refine .inr (.inl ⟨entry.name, List.mem_map_of_mem (List.mem_filter.2 ⟨known, ?_⟩), same⟩)
      simpa using after
    | inr behind =>
      rw [← spaced_stop isStop [], ← shape] at behind
      have last := of_mem_spaced_closing filled behind
      rw [spaced_blank blank] at last
      exact .inr (.inr ((List.mem_cons.1 last).resolve_left filled))

theorem of_mem_spaced_statement {exports : Bool} {clause : Clause} {word : List Char}
    (filled : word ≠ []) (member : word ∈ spaced [] (Opening.statement exports clause).text) :
    word ∈ [statementWord exports, asWord, fromWord] ∨
      ∃ name ∈ clause.spacedNames, name.text = word := by
  have blank : isBlankChar ' ' = true := by decide
  rw [Opening.text, Opening.prelude, Opening.beginning, List.nil_append,
    spaced_append (statementWord_plain exports), spaced_blank blank] at member
  cases List.mem_cons.1 member with
  | inl own => exact .inl (by simp [own])
  | inr later =>
    obtain same | name | behind := Clause.of_mem_spaced filled later
    · exact .inl (by simp [same])
    · exact .inr name
    · rw [spaced_append fromWord_plain, spaced_blank blank] at behind
      cases List.mem_cons.1 behind with
      | inl last => exact .inl (by simp [last])
      | inr none => cases none

theorem exists_spaced_append (run : List Char) (plain : ∀ c ∈ run, isNameChar c = true)
    (front rest : List Char) : ∃ earlier own,
      spaced run (front ++ rest) = earlier ++ spaced own rest ∧ own <:+ run ++ front ∧
        ∀ c ∈ own, isNameChar c = true := by
  induction front generalizing run with
  | nil => exact ⟨[], run, rfl, by simp, plain⟩
  | cons c front ih =>
    rw [List.cons_append, spaced]
    by_cases fits : isNameChar c = true
    · rw [if_pos fits]
      have next := ih (run ++ [c]) (List.forall_mem_append.2 ⟨plain, by simpa using fits⟩)
      rwa [List.append_assoc, List.singleton_append] at next
    · rw [if_neg fits]
      obtain ⟨earlier, own, shape, suffix, all⟩ := ih [] (by simp)
      have longer : own <:+ run ++ c :: front :=
        suffix.trans ((List.suffix_cons c front).trans (List.suffix_append run _))
      by_cases blank : isBlankChar c = true
      · rw [if_pos blank, shape]
        exact ⟨run :: earlier, own, rfl, longer, all⟩
      · rw [if_neg blank]
        exact ⟨earlier, own, shape, longer, all⟩

/-- A word that stands alone, white space being behind it, is such a word of the text, unless a name
with `$` ends in it. -/
theorem mem_spaced_of_alone {front word more : List Char} {blank : Char}
    (outside : ∀ c ∈ front.getLast?, isWordChar c = false)
    (plain : ∀ c ∈ word, isNameChar c = true) (isBlank : isBlankChar blank = true) :
    ∃ whole ∈ spaced [] (front ++ (word ++ blank :: more)), whole = word ∨ '$' :: word <:+ whole := by
  obtain ⟨earlier, run, shape, suffix, all⟩ :=
    exists_spaced_append [] (by simp) front (word ++ blank :: more)
  rw [spaced_append plain, spaced_blank isBlank] at shape
  refine ⟨run ++ word, by simp [shape], ?_⟩
  obtain rfl | ⟨own, c, rfl⟩ := List.eq_nil_or_concat run
  · exact .inl rfl
  · -- The character in front of the word belongs to a name, and yet no word reaches over it.
    obtain ⟨before, rfl⟩ := suffix
    rw [List.concat_eq_append] at all outside ⊢
    obtain rfl := eq_dollar_of_isNameChar (all c (by simp)) (outside c (by simp))
    exact .inr ⟨own, by simp⟩

/-- No name of an import or an export that stands in front of white space ends in `$` and the word
that the other of the two begins with. -/
def Opening.Unambiguous : Opening → Prop
  | statement exports clause =>
    ∀ name ∈ clause.spacedNames, ¬ '$' :: statementWord (!exports) <:+ name.text
  | call _ _ => True

instance : DecidablePred Opening.Unambiguous
  | .statement exports clause =>
    inferInstanceAs
      (Decidable (∀ name ∈ clause.spacedNames, ¬ '$' :: statementWord (!exports) <:+ name.text))
  | .call _ _ => .isTrue trivial

end FileGraph.Statement.Script
