import FileGraph.Proofs.Statement.Declaration
import FileGraph.Proofs.Statement.Pieces

/-! # The declarations of a script are found

Every form of statement finds the declarations of its own form and no others. The first quotation
mark ahead decides: in front of it must stand what the form begins with, and the target behind it
must end on its line. Inside a path there is no such mark, and what follows the path has none on its
line.

* `Form.front_of_eq_some`: what a statement needs, `Form.Front` being what stands in front of its
  target.
* `Declaration.found`, `Form.search_own`: a declaration is found by its own form.
* `Opening.not_front`, `Form.search_other`: and by no other.
* `Extract.references_declarations`: the references of a list of declarations.
-/

namespace FileGraph

namespace Statement.Script

open Text

/-! ## Forms of statement -/

inductive Form where
  | statement (exports : Bool)
  | call (requires : Bool)
  deriving DecidableEq

namespace Form

def word : Form → List Char
  | statement exports => statementWord exports
  | call requires => callWord requires

def recogniser : Form → Recogniser
  | statement exports => fromStatement (statementWord exports)
  | call requires => Script.call (callWord requires)

/-- What stands in front of the first quotation mark of a statement. -/
def Front : Form → List Char → Prop
  | statement exports => FromFront (statementWord exports)
  | call requires => CallFront (callWord requires)

end Form

def Opening.form : Opening → Form
  | statement exports _ => .statement exports
  | call requires _ => .call requires

/-- Whether a target that ends on its line stands at the beginning of a text. -/
def Closes (text : List Char) : Prop :=
  ∃ target last rest, text = target ++ last :: rest ∧ isQuote last = true ∧ '\n' ∉ target

theorem not_closes {front : List Char} (unquoted : ∀ c ∈ front, isQuote c = false)
    (rest : List Char) : ¬ Closes (front ++ '\n' :: rest) := by
  rintro ⟨target, last, later, shape, quote, oneLine⟩
  have plain : ∀ c ∈ target, (c != '\n') = true :=
    fun c member => bne_iff_ne.2 fun same => oneLine (same ▸ member)
  have apart : last ≠ '\n' := by
    rintro rfl
    exact absurd quote (by decide)
  -- The quotation mark stands on the line, which is a part of `front`.
  have onLine : last ∈ (front ++ '\n' :: rest).takeWhile (· != '\n') := by
    rw [shape, List.takeWhile_append_of_pos plain]
    simp [apart]
  have inside : last ∈ front := by
    rw [List.takeWhile_append] at onLine
    split at onLine
    · simpa using onLine
    · exact (List.takeWhile_prefix _).subset onLine
  rw [unquoted last inside] at quote
  cases quote

namespace Form

theorem word_plain (form : Form) : ∀ c ∈ form.word, isNameChar c = true := by
  cases form with
  | statement exports => exact statementWord_plain exports
  | call requires => exact callWord_plain requires

variable {form : Form} {before : Option Char} {text front rest : List Char} {first : Char}
  {hit : Hit}

/-- A statement needs its beginning in front of a quotation mark, and behind that a target. -/
theorem front_of_eq_some (found : form.recogniser before (front ++ first :: rest) = some hit)
    (unquoted : ∀ c ∈ front, isQuote c = false) (opens : isQuote first = true) :
    outsideWord before = true ∧ form.Front front ∧ Closes rest := by
  have own : ∀ c ∈ form.word, isQuote c = false :=
    fun c member => (apart_of_isNameChar (form.word_plain c member)).1
  cases form with
  | statement exports =>
    obtain ⟨outside, front', first', target, last, rest', shape, quotes, -⟩ :=
      fromStatement_eq_some own found
    obtain ⟨rfl, rfl⟩ := quotes.eq_of_front unquoted opens
    exact ⟨outside, shape, target, last, rest', rfl, quotes.closes,
      fun member => (quotes.inside _ member).2 rfl⟩
  | call requires =>
    obtain ⟨outside, front', first', target, last, trail, later, shape, quotes, -⟩ :=
      call_eq_some own found
    obtain ⟨rfl, rfl⟩ := quotes.eq_of_front unquoted opens
    exact ⟨outside, shape, target, last, _, rfl, quotes.closes,
      fun member => (quotes.inside _ member).2 rfl⟩

theorem begins_of_eq_some (found : form.recogniser before text = some hit) :
    ∃ later, text = form.word ++ later := by
  cases form with
  | statement exports =>
    simp only [recogniser, fromStatement, Option.bind_eq_bind, Option.bind_eq_some_iff] at found
    obtain ⟨-, -, behind, opened, -⟩ := found
    exact ⟨behind, after?_eq_some_iff.1 opened⟩
  | call requires =>
    simp only [recogniser, Script.call, Option.bind_eq_bind, Option.bind_eq_some_iff] at found
    obtain ⟨-, -, behind, opened, -⟩ := found
    exact ⟨behind, after?_eq_some_iff.1 opened⟩

theorem word_ne_nil (form : Form) : form.word ≠ [] := by
  cases form with
  | statement exports => cases exports <;> decide
  | call requires => cases requires <;> decide

theorem eq_none_of_stop {c : Char} (stop : isNameChar c = false) :
    form.recogniser before (c :: rest) = none := by
  rw [Option.eq_none_iff_forall_ne_some]
  intro hit found
  obtain ⟨later, shape⟩ := begins_of_eq_some found
  obtain ⟨w, word, own⟩ := List.exists_cons_of_ne_nil form.word_ne_nil
  rw [own, List.cons_append] at shape
  rw [(List.cons.inj shape).1, form.word_plain w (by simp [own])] at stop
  cases stop

/-! ## Passing over the parts of a declaration -/

theorem search_stops (p : Place) {part : List Char} (stops : ∀ c ∈ part, isNameChar c = false)
    (rest : List Char) : search form.recogniser 0 p (part ++ rest) =
      search form.recogniser 0 (p.advance part) rest := by
  apply search_pass
  intro front inside filled shape
  cases inside with
  | nil => exact absurd rfl filled
  | cons c inside => exact eq_none_of_stop (stops c (by simp [shape]))

end Form

/-! ## Declarations of other forms -/

/-- What stands behind the path. -/
def Declaration.ending (declaration : Declaration) : List Char :=
  declaration.mark :: (declaration.opening.closing ++ [';', '\n'])

section

variable {form : Form} {declaration : Declaration}

theorem Declaration.text_append (declaration : Declaration) (rest : List Char) :
    declaration.text ++ rest = declaration.opening.text ++ ([declaration.mark] ++
      (declaration.path ++ (declaration.ending ++ rest))) := by
  simp [text, ending]

theorem not_isNameChar_of_isQuote {c : Char} (quote : isQuote c = true) : isNameChar c = false := by
  rw [Bool.eq_false_iff]
  intro fits
  rw [(apart_of_isNameChar fits).1] at quote
  cases quote

theorem Opening.of_mem_closing {opening : Opening} : ∀ c ∈ opening.closing, c = ')' := by
  cases opening <;> simp [closing]

/-- No statement begins in a path: behind the next quotation mark there is none on the line. -/
theorem Form.search_path (p : Place) (rest : List Char) :
    search form.recogniser 0 p (declaration.path ++ (declaration.ending ++ rest)) =
      search form.recogniser 0 (p.advance declaration.path) (declaration.ending ++ rest) := by
  apply search_pass
  intro front inside filled shape
  rw [Option.eq_none_iff_forall_ne_some]
  intro hit found
  have unquoted : ∀ c ∈ inside, isQuote c = false :=
    fun c member => (declaration.plain c (shape ▸ List.mem_append_right _ member)).1
  have closes := (front_of_eq_some found unquoted declaration.quotes).2.2
  have marks : ∀ c ∈ declaration.opening.closing ++ [';'], isQuote c = false := by
    refine List.forall_mem_append.2 ⟨fun c member => ?_, List.forall_mem_singleton.2 (by decide)⟩
    rw [Opening.of_mem_closing c member]
    decide
  refine not_closes marks rest ?_
  simpa using closes

theorem ends_stop : ∀ c ∈ [';', '\n'], isNameChar c = false :=
  List.all_iff_forall_prop.1 (by decide)

theorem Form.search_ending (p : Place) (rest : List Char) :
    search form.recogniser 0 p (declaration.ending ++ rest) =
      search form.recogniser 0 (p.advance declaration.ending) rest := by
  refine search_stops p
    (List.forall_mem_cons.2 ⟨not_isNameChar_of_isQuote declaration.quotes, ?_⟩) rest
  refine List.forall_mem_append.2 ⟨fun c member => ?_, ends_stop⟩
  rw [Opening.of_mem_closing c member]
  decide

/-- Where nothing in front of the path looks like the form, the whole declaration is passed over. -/
theorem Form.search_other (p : Place) (quiet : ∀ front inside,
      declaration.opening.text = front ++ inside → outsideWord (p.advance front).before = true →
      ¬ form.Front inside) (rest : List Char) :
    search form.recogniser 0 p (declaration.text ++ rest) =
      search form.recogniser 0 (p.advance declaration.text) rest := by
  have opening : ∀ rest, search form.recogniser 0 p
      (declaration.opening.text ++ ([declaration.mark] ++ rest)) =
        search form.recogniser 0 (p.advance declaration.opening.text) ([declaration.mark] ++ rest) := by
    intro rest
    apply search_pass
    intro front inside filled shape
    rw [Option.eq_none_iff_forall_ne_some]
    intro hit found
    have unquoted : ∀ c ∈ inside, isQuote c = false :=
      fun c member => declaration.opening.unquoted c (shape ▸ List.mem_append_right _ member)
    obtain ⟨outside, needed, -⟩ := front_of_eq_some found unquoted declaration.quotes
    exact quiet front inside shape outside needed
  have mark : ∀ c ∈ [declaration.mark], isNameChar c = false :=
    List.forall_mem_singleton.2 (not_isNameChar_of_isQuote declaration.quotes)
  have whole : p.advance declaration.text = (((p.advance declaration.opening.text).advance
      [declaration.mark]).advance declaration.path).advance declaration.ending := by
    have parts := declaration.text_append []
    simp only [List.append_nil] at parts
    rw [parts, Place.advance_append, Place.advance_append, Place.advance_append]
  rw [Declaration.text_append, opening, search_stops _ mark, search_path, search_ending, whole]

end

/-! ## What stands in front of a path -/

theorem Opening.text_statement (exports : Bool) (clause : Clause) :
    ∃ front, (statement exports clause).text = front ++ 'm' :: [' '] :=
  ⟨statementWord exports ++ ' ' :: (clause.text ++ ' ' :: ['f', 'r', 'o']), by
    simp [text, prelude, beginning, fromWord]⟩

theorem exists_of_fromFront {word text front inside : List Char} (shape : text = front ++ inside)
    (own : FromFront word inside) : ∃ earlier gap, (∀ c ∈ gap, isBlankChar c = true) ∧
      text = earlier ++ 'm' :: gap := by
  obtain ⟨blank, bindings, gap, -, blanks, rfl⟩ := own
  exact ⟨front ++ (word ++ blank :: (bindings ++ ['f', 'r', 'o'])), gap, blanks, by
    simp [shape, fromWord]⟩

theorem exists_of_callFront {word text front inside : List Char} (shape : text = front ++ inside)
    (own : CallFront word inside) : ∃ gap gap', (∀ c ∈ gap, isBlankChar c = true) ∧
      (∀ c ∈ gap', isBlankChar c = true) ∧ text = (front ++ word ++ gap) ++ '(' :: gap' := by
  obtain ⟨gap, gap', blanks, blanks', rfl⟩ := own
  exact ⟨gap, gap', blanks, blanks', by simp [shape]⟩

theorem callWord_eq (requires : Bool) : ∃ front, callWord requires =
    front ++ [if requires then 'e' else 't'] := by
  cases requires with
  | true => exact ⟨['r', 'e', 'q', 'u', 'i', 'r'], rfl⟩
  | false => exact ⟨['i', 'm', 'p', 'o', 'r'], rfl⟩

/-- A call is found in one place, and under its own word. -/
theorem Opening.of_callFront {requires requires' : Bool} {name : Identifier} {front inside : List Char}
    (shape : (call requires name).text = front ++ inside)
    (own : CallFront (callWord requires') inside) :
    requires' = requires ∧ front = (call requires name).prelude := by
  obtain ⟨gap, gap', blanks, blanks', shape'⟩ := exists_of_callFront shape own
  obtain ⟨first, word⟩ := callWord_eq requires
  obtain ⟨first', word'⟩ := callWord_eq requires'
  have whole : ((call requires name).prelude ++ callWord requires) ++ '(' :: [] =
      (front ++ callWord requires' ++ gap) ++ '(' :: gap' := by
    rw [← shape', text, beginning, List.append_assoc]
  have words := (eq_of_blanks (by decide) (by decide) (by simp) blanks' whole).1
  have letter : ∀ requires : Bool, isBlankChar (if requires then 'e' else 't') = false := by decide
  -- The parentheses are one, and so are the last letters of the words, which tell the words apart.
  have cut : ((call requires name).prelude ++ first) ++ (if requires then 'e' else 't') :: [] =
      (front ++ first') ++ (if requires' then 'e' else 't') :: gap := by
    simpa [word, word'] using words
  obtain ⟨fronts, last⟩ := eq_of_blanks (letter _) (letter _) (by simp) blanks cut
  have same : requires' = requires := by
    cases requires <;> cases requires' <;> simp_all
  subst same
  obtain rfl : first' = first := (List.append_inj' (word'.symm.trans word) rfl).1
  exact ⟨rfl, (List.append_cancel_right fronts).symm⟩

theorem not_mem_opening (exports : Bool) : ∀ word ∈ [statementWord exports, asWord, fromWord],
    ¬ (word = statementWord (!exports) ∨ '$' :: statementWord (!exports) <:+ word) := by
  cases exports <;> decide

theorem Identifier.text_ne (name : Identifier) (exports : Bool) : name.text ≠ statementWord exports := by
  intro same
  refine name.free (same ▸ ?_)
  cases exports <;> decide

theorem Opening.not_front {form : Form} {opening : Opening} (other : form ≠ opening.form)
    (unambiguous : opening.Unambiguous) {p : Place} {front inside : List Char}
    (shape : opening.text = front ++ inside) (outside : outsideWord (p.advance front).before = true) :
    ¬ form.Front inside := by
  intro own
  cases opening with
  | statement exports clause =>
    obtain ⟨earlier, ends⟩ := text_statement exports clause
    cases form with
    | statement exports' =>
      obtain ⟨blank, bindings, gap, isBlank, -, rfl⟩ := own
      obtain rfl : exports' = !exports := by
        cases exports <;> cases exports' <;> simp_all [form]
      have last : ∀ c ∈ front.getLast?, isWordChar c = false := by
        intro c ends
        obtain ⟨more, rfl⟩ := List.getLast?_eq_some_iff.1 ends
        rw [Place.before_advance_concat] at outside
        simpa [outsideWord] using outside
      -- The word of the other form would be a word of the clause, or a name ends in it.
      obtain ⟨whole, known, same⟩ :=
        mem_spaced_of_alone last (statementWord_plain (!exports)) isBlank
      rw [← shape] at known
      have filled : whole ≠ [] := by
        rintro rfl
        revert same
        cases exports <;> decide
      obtain own | ⟨name, given, rfl⟩ := of_mem_spaced_statement filled known
      · exact not_mem_opening exports whole own same
      · exact same.elim (name.text_ne (!exports)) (unambiguous name given)
    | call requires =>
      -- The opening ends in `from` and no parenthesis.
      obtain ⟨gap, gap', -, blanks', shape'⟩ := exists_of_callFront shape own
      have blank : ∀ c ∈ [' '], isBlankChar c = true := List.forall_mem_singleton.2 (by decide)
      exact absurd (eq_of_blanks (by decide) (by decide) blank blanks' (ends.symm.trans shape')).2
        (by decide)
  | call requires name =>
    cases form with
    | statement exports =>
      obtain ⟨earlier, gap, blanks, shape'⟩ := exists_of_fromFront shape own
      have ends : (call requires name).text =
          ((call requires name).prelude ++ callWord requires) ++ '(' :: [] := by
        rw [text, beginning, List.append_assoc]
      exact absurd (eq_of_blanks (by decide) (by decide) (by simp) blanks (ends.symm.trans shape')).2
        (by decide)
    | call requires' => exact other (congrArg Form.call (of_callFront shape own).1)

/-! ## Declarations of the own form -/

theorem Clause.head_text (clause : Clause) : ∃ c later, clause.text = c :: later ∧
    isBlankChar c = false := by
  cases clause with
  | all => exact ⟨'*', _, rfl, by decide⟩
  | allAs name => exact ⟨'*', _, rfl, by decide⟩
  | named first others comma => exact ⟨'\x7b', _, rfl, by decide⟩

theorem firstFromClause?_cons {before : Option Char} {c : Char} {text : List Char}
    (noClause : fromClause? (c :: text) = none) (noQuote : isQuote c = false) (noEnd : c ≠ ';') :
    firstFromClause? before (c :: text) = firstFromClause? (some c) text := by
  rw [firstFromClause?, noClause, ite_self]
  simp [noQuote, noEnd]

section

variable {mark : Char} {path : List Char} (quotes : isQuote mark = true) (filled : path ≠ [])
  (plain : ∀ c ∈ path, isQuote c = false ∧ c ≠ '\n') (rest : List Char)

include quotes filled plain

theorem quoted?_target :
    quoted? (mark :: (path ++ mark :: rest)) = some (path, mark :: rest, rest) := by
  have taken : takeSome? (fun c => !isQuote c && c != '\n') (path ++ mark :: rest) =
      some (path, mark :: rest) := by
    apply takeSome?_append filled _ (by simp [quotes])
    intro c member
    simp [plain c member]
  have skipped : ∀ text, skipOne? isQuote (mark :: text) = some text := fun _ => if_pos quotes
  simp only [quoted?, delimited?, skipped, taken, Option.bind_eq_bind, Option.bind_some,
    Option.pure_def]

theorem fromClause?_target :
    fromClause? (fromWord ++ ' ' :: mark :: (path ++ mark :: rest)) =
      some (path, mark :: rest, rest) := by
  have solid : isBlankChar mark = false := by
    rw [Bool.eq_false_iff]
    intro blank
    rw [isQuote_eq_false_of_isBlankChar blank] at quotes
    cases quotes
  have opened : after? fromWord (fromWord ++ ' ' :: mark :: (path ++ mark :: rest)) =
      some (' ' :: mark :: (path ++ mark :: rest)) := after?_eq_some_iff.2 rfl
  have gap : (' ' :: mark :: (path ++ mark :: rest)).dropWhile isBlankChar =
      mark :: (path ++ mark :: rest) := by
    rw [List.dropWhile_cons_of_pos (by decide), List.dropWhile_cons_of_neg (by simp [solid])]
  simp only [fromClause?, opened, gap, Option.bind_eq_bind, Option.bind_some,
    quoted?_target quotes filled plain]

/-- The clause in front of the first quotation mark is found, whatever the names in front of it
are. -/
theorem firstFromClause?_target {bindings : List Char}
    (bound : ∀ c ∈ bindings, isQuote c = false ∧ c ≠ ';') (before : Option Char) :
    firstFromClause? before
        (bindings ++ ' ' :: (fromWord ++ ' ' :: mark :: (path ++ mark :: rest))) =
      some (path, mark :: rest, rest) := by
  have clause := fromClause?_target quotes filled plain rest
  induction bindings generalizing before with
  | nil =>
    rw [List.nil_append, firstFromClause?_cons (by simp [fromClause?, fromWord, after?]) (by decide)
      (by decide)]
    have outside : outsideWord (some ' ') = true := by decide
    rw [fromWord, List.cons_append] at clause ⊢
    rw [firstFromClause?, if_pos outside, clause]
  | cons c bindings ih =>
    rw [List.forall_mem_cons] at bound
    have early : fromClause? (c :: (bindings ++
        ' ' :: (fromWord ++ ' ' :: mark :: (path ++ mark :: rest)))) = none := by
      rw [Option.eq_none_iff_forall_ne_some]
      rintro ⟨target, behind, later⟩ found
      obtain ⟨gap, first, last, blanks, -, own⟩ := fromClause?_eq_some found
      have unquoted : ∀ d ∈ c :: (bindings ++ ' ' :: (fromWord ++ [' '])), isQuote d = false := by
        simp only [List.forall_mem_cons, List.forall_mem_append]
        exact ⟨bound.1.1, fun d member => (bound.2 d member).1, by decide, fromWord_unquoted,
          by decide, by simp⟩
      have shape : c :: (bindings ++ ' ' :: (fromWord ++ ' ' :: mark :: (path ++ mark :: rest))) =
          c :: (bindings ++ ' ' :: (fromWord ++ [' '])) ++ mark :: (path ++ mark :: rest) := by simp
      rw [shape] at own
      -- Both clauses reach up to the same quotation mark, so that they would begin in one place.
      have fronts := (own.eq_of_front unquoted quotes).1
      have cut : ['f', 'r', 'o'] ++ 'm' :: gap =
          (c :: (bindings ++ [' ', 'f', 'r', 'o'])) ++ 'm' :: [' '] := by
        simpa [fromWord] using fronts
      have blank : ∀ c ∈ [' '], isBlankChar c = true := List.forall_mem_singleton.2 (by decide)
      have same := (eq_of_blanks (by decide) (by decide) blanks blank cut).1
      simpa using congrArg List.length same
    rw [List.cons_append, firstFromClause?_cons early bound.1.1 bound.1.2]
    exact ih bound.2 _

theorem fromStatement_found (exports : Bool) (clause : Clause) {before : Option Char}
    (outside : outsideWord before = true) :
    fromStatement (statementWord exports) before
        ((Opening.statement exports clause).beginning ++ mark :: (path ++ mark :: rest)) =
      some ⟨(Opening.statement exports clause).beginning ++ [mark], path, [mark]⟩ := by
  have passed : (guard (outsideWord before = true) : Option Unit) = some () := if_pos outside
  have shape : (Opening.statement exports clause).beginning ++ mark :: (path ++ mark :: rest) =
      statementWord exports ++ ' ' :: (clause.text ++
        ' ' :: (fromWord ++ ' ' :: mark :: (path ++ mark :: rest))) := by
    simp [Opening.beginning]
  have opened := after?_eq_some_iff.2 shape
  have skipped : ∀ behind, skipSome? isBlankChar (' ' :: (clause.text ++ behind)) =
      some (clause.text ++ behind) := by
    intro behind
    obtain ⟨c, later, text, solid⟩ := clause.head_text
    rw [text, skipSome?, if_pos (by decide), List.cons_append,
      List.dropWhile_cons_of_neg (by simp [solid])]
  have found := firstFromClause?_target quotes filled plain rest clause.plain none
  have cut := within_eq ((Opening.statement exports clause).beginning ++ [mark]) path [mark] rest
  simp only [fromStatement, passed, opened, skipped, found, Option.bind_eq_bind, Option.bind_some,
    Option.pure_def, Option.some.injEq]
  simpa using cut

theorem call_found (word : List Char) {before : Option Char} (outside : outsideWord before = true) :
    call word before (word ++ '(' :: mark :: (path ++ mark :: ')' :: rest)) =
      some ⟨word ++ ['(', mark], path, [mark, ')']⟩ := by
  have passed : (guard (outsideWord before = true) : Option Unit) = some () := if_pos outside
  have opened : after? word (word ++ '(' :: mark :: (path ++ mark :: ')' :: rest)) =
      some ('(' :: mark :: (path ++ mark :: ')' :: rest)) := after?_eq_some_iff.2 rfl
  have parenthesis : ∀ behind, ('(' :: behind).dropWhile isBlankChar = '(' :: behind :=
    fun behind => List.dropWhile_cons_of_neg (by decide)
  have closing : ∀ behind, (')' :: behind).dropWhile isBlankChar = ')' :: behind :=
    fun behind => List.dropWhile_cons_of_neg (by decide)
  have solid : ∀ behind, (mark :: behind).dropWhile isBlankChar = mark :: behind := by
    intro behind
    refine List.dropWhile_cons_of_neg fun blank => ?_
    rw [isQuote_eq_false_of_isBlankChar blank] at quotes
    cases quotes
  have skipped : ∀ c : Char, ∀ behind, skipOne? (· == c) (c :: behind) = some behind :=
    fun c behind => if_pos (beq_self_eq_true c)
  have found := quoted?_target quotes filled plain (')' :: rest)
  have cut := within_eq (word ++ ['(', mark]) path [mark, ')'] rest
  simp only [call, passed, opened, parenthesis, skipped, solid, found, closing, Option.bind_eq_bind,
    Option.bind_some, Option.pure_def, Option.some.injEq]
  simpa using cut

end

/-- A declaration without what stands in front of it and behind it. -/
def Declaration.statement (declaration : Declaration) : List Char :=
  declaration.opening.beginning ++ declaration.mark :: (declaration.path ++
    declaration.mark :: declaration.opening.closing)

theorem Declaration.text_eq (declaration : Declaration) : declaration.text =
    declaration.opening.prelude ++ (declaration.statement ++ [';', '\n']) := by
  simp [text, statement, Opening.text]

theorem Declaration.found (declaration : Declaration) {before : Option Char}
    (outside : outsideWord before = true) (rest : List Char) :
    declaration.opening.form.recogniser before (declaration.statement ++ rest) =
      some ⟨declaration.opening.beginning ++ [declaration.mark], declaration.path,
        declaration.mark :: declaration.opening.closing⟩ := by
  obtain ⟨opening, mark, path, quotes, filled, inside⟩ := declaration
  have plain : ∀ c ∈ path, isQuote c = false ∧ c ≠ '\n' := by simpa using inside
  cases opening with
  | statement exports clause =>
    have found := fromStatement_found quotes filled plain rest exports clause outside
    simpa [statement, Opening.form, Form.recogniser, Opening.closing] using found
  | call requires name =>
    have found := call_found quotes filled plain rest (callWord requires) outside
    simpa [statement, Opening.form, Form.recogniser, Opening.beginning, Opening.closing] using found

theorem Opening.outside_prelude (opening : Opening) {p : Place}
    (outside : outsideWord p.before = true) :
    outsideWord (p.advance opening.prelude).before = true := by
  cases opening with
  | statement exports clause => exact outside
  | call requires name =>
    have shape : (call requires name).prelude =
        constWord ++ ' ' :: (name.text ++ [' ', '=']) ++ [' '] := by
      simp [prelude]
    rw [shape, Place.before_advance_concat]
    decide

/-- In front of a statement none begins that would end in its path. -/
theorem Form.search_prelude (p : Place) (declaration : Declaration) (rest : List Char) :
    search declaration.opening.form.recogniser 0 p
        (declaration.opening.prelude ++ (declaration.statement ++ rest)) =
      search declaration.opening.form.recogniser 0 (p.advance declaration.opening.prelude)
        (declaration.statement ++ rest) := by
  obtain ⟨opening, mark, path, quotes, -, -⟩ := declaration
  cases opening with
  | statement exports clause => rfl
  | call requires name =>
    apply search_pass
    intro front inside filled shape
    rw [Option.eq_none_iff_forall_ne_some]
    intro hit found
    have whole : (Opening.call requires name).text =
        front ++ (inside ++ (Opening.call requires name).beginning) := by
      rw [Opening.text, shape, List.append_assoc]
    have unquoted : ∀ c ∈ inside ++ (Opening.call requires name).beginning, isQuote c = false :=
      fun c member => Opening.unquoted _ c (whole ▸ List.mem_append_right _ member)
    rw [Declaration.statement, List.append_assoc, List.cons_append, ← List.append_assoc] at found
    have needed := (front_of_eq_some found unquoted quotes).2.1
    have fronts := (Opening.of_callFront whole needed).2
    rw [shape] at fronts
    exact filled (List.append_right_eq_self.1 fronts.symm)

/-- The place of the path of a declaration that begins at a place. -/
def Declaration.spot (p : Place) (declaration : Declaration) : Place × List Char :=
  (p.advance (declaration.opening.text ++ [declaration.mark]), declaration.path)

theorem Form.search_own {p : Place} (outside : outsideWord p.before = true)
    (declaration : Declaration) (rest : List Char) :
    search declaration.opening.form.recogniser 0 p (declaration.text ++ rest) =
      declaration.spot p ::
        search declaration.opening.form.recogniser 0 (p.advance declaration.text) rest := by
  have found := declaration.found (declaration.opening.outside_prelude outside) ([';', '\n'] ++ rest)
  have filled : declaration.statement ≠ [] := by simp [Declaration.statement]
  rw [declaration.text_eq, List.append_assoc, List.append_assoc, search_prelude,
    search_hit filled found (by simp [Hit.size, Declaration.statement]; omega),
    search_stops _ ends_stop]
  simp only [Declaration.spot, Opening.text, Place.advance_append]

/-! ## Lists of declarations -/

/-- What a form finds in a declaration that begins at a place. -/
def Form.finds (form : Form) (piece : Place × Declaration) : List (Place × List Char) :=
  if form = piece.2.opening.form then [piece.2.spot piece.1] else []

theorem Form.search_declaration {form : Form} {p : Place} (outside : outsideWord p.before = true)
    {declaration : Declaration} (unambiguous : declaration.opening.Unambiguous) (rest : List Char) :
    search form.recogniser 0 p (declaration.text ++ rest) =
      form.finds (p, declaration) ++ search form.recogniser 0 (p.advance declaration.text) rest := by
  by_cases own : form = declaration.opening.form
  · rw [finds, if_pos own, own]
    exact search_own outside declaration rest
  · rw [finds, if_neg own]
    exact search_other p (fun front inside => Opening.not_front own unambiguous) rest

theorem Form.search_declarations (form : Form) {declarations : List Declaration}
    (unambiguous : ∀ declaration ∈ declarations, declaration.opening.Unambiguous) {p : Place}
    (outside : outsideWord p.before = true) :
    search form.recogniser 0 p (declarations.flatMap Declaration.text) =
      (placed Declaration.text p declarations).flatMap form.finds := by
  induction declarations generalizing p with
  | nil => rfl
  | cons declaration later ih =>
    rw [List.forall_mem_cons] at unambiguous
    have next : outsideWord (p.advance declaration.text).before = true := by
      have ends : declaration.text =
          declaration.opening.prelude ++ (declaration.statement ++ [';']) ++ ['\n'] := by
        simp [declaration.text_eq]
      rw [ends, Place.before_advance_concat]
      decide
    rw [List.flatMap_cons, search_declaration outside unambiguous.1, ih unambiguous.2 next, placed,
      List.flatMap_cons]

def forms : List (Form × Kind) :=
  [(.statement false, .import), (.call true, .require), (.call false, .dynamicImport),
    (.statement true, .export)]

def Declaration.findings (piece : Place × Declaration) : List (Place × List Char × Kind) :=
  [((piece.2.spot piece.1).1, piece.2.path, piece.2.opening.kind)]

theorem flatMap_finds (piece : Place × Declaration) :
    (forms.flatMap fun form => (form.1.finds piece).map fun spot => (spot.1, spot.2, form.2)) =
      Declaration.findings piece := by
  obtain ⟨p, opening, mark, path, quotes, filled, inside⟩ := piece
  cases opening with
  | statement exports clause =>
    cases exports <;>
      simp [forms, Form.finds, Opening.form, Declaration.findings, Opening.kind, Declaration.spot]
  | call requires name =>
    cases requires <;>
      simp [forms, Form.finds, Opening.form, Declaration.findings, Opening.kind, Declaration.spot]

theorem found_declarations {language : Language}
    (script : language = .typeScript ∨ language = .javaScript) {declarations : List Declaration}
    (unambiguous : ∀ declaration ∈ declarations, declaration.opening.Unambiguous) :
    Extract.found language (declarations.flatMap Declaration.text) = forms.map fun form =>
      ((placed Declaration.text .start declarations).flatMap form.1.finds, form.2) := by
  have searched : Extract.found language (declarations.flatMap Declaration.text) =
      forms.map fun form =>
        (search form.1.recogniser 0 .start (declarations.flatMap Declaration.text), form.2) := by
    obtain rfl | rfl := script <;> rfl
  rw [searched]
  exact List.map_congr_left fun form _ => by rw [form.1.search_declarations unambiguous rfl]

theorem line_spot (p : Place) (declaration : Declaration) :
    (declaration.spot p).1.line = p.line + declaration.opening.text.count '\n' := by
  have mark : declaration.mark ≠ '\n' := by
    intro same
    have quotes := declaration.quotes
    rw [same] at quotes
    exact absurd quotes (by decide)
  rw [Declaration.spot, Place.line_advance, List.count_append, List.count_singleton]
  simp [mark]

theorem map_findings (declarations : List Declaration) (p : Place) :
    ((placed Declaration.text p declarations).flatMap Declaration.findings).map Extract.toReference =
      written p.line declarations := by
  induction declarations generalizing p with
  | nil => rfl
  | cons declaration later ih =>
    rw [placed, List.flatMap_cons, List.map_append, ih, written, Place.line_advance, ← line_spot]
    rfl

theorem merge_declarations (declarations : List Declaration) :
    Extract.merge (forms.map fun form =>
        ((placed Declaration.text .start declarations).flatMap form.1.finds, form.2)) =
      written 1 declarations := by
  have ascending : ∀ piece ∈ placed Declaration.text .start declarations, Extract.Ascending
      piece.1.offset (piece.1.offset + piece.2.text.length) (Declaration.findings piece) := by
    intro piece _
    refine ⟨List.pairwise_singleton _ _, ?_⟩
    simp only [Declaration.findings, List.forall_mem_singleton, Declaration.spot,
      Place.offset_advance, Declaration.text, List.length_append, List.length_cons, List.length_nil]
    omega
  rw [Extract.merge_placed _ _ _ forms Form.finds Declaration.findings
    (fun piece _ => .of_eq (flatMap_finds piece)) ascending]
  exact map_findings declarations .start

end Statement.Script

namespace Extract

open Statement Statement.Script

/-- The references of declarations, each on lines of its own, are the ones they write: one for each,
in their order, with its path, its kind and the line of its path. -/
theorem references_declarations {language : Language}
    (script : language = .typeScript ∨ language = .javaScript) {declarations : List Declaration}
    (unambiguous : ∀ declaration ∈ declarations, declaration.opening.Unambiguous) :
    references language (String.ofList (declarations.flatMap Declaration.text)) =
      written 1 declarations := by
  rw [references, String.toList_ofList, found_declarations script unambiguous]
  exact merge_declarations declarations

/-- Names over several lines, one of them with `$`, and paths that look like statements. -/
theorem references_declarations_pair :
    references .javaScript
        "import \x7b\n  a,\n  $b\n\x7d from 'export * from ';\nconst $import = require(\"import(\");\n" =
      [⟨"export * from ", .import, 4⟩, ⟨"import(", .require, 5⟩] := by
  let a : Identifier := ⟨['a'], by decide, by decide, by decide⟩
  let b : Identifier := ⟨"$b".toList, by decide, by decide, by decide⟩
  let c : Identifier := ⟨"$import".toList, by decide, by decide, by decide⟩
  let names : Clause := .named ⟨⟨"\n  ".toList, by decide⟩, a, ⟨[], by decide⟩⟩
    [⟨⟨"\n  ".toList, by decide⟩, b, ⟨['\n'], by decide⟩⟩] none
  let first : Declaration :=
    ⟨.statement false names, '\'', "export * from ".toList, by decide, by decide, by decide⟩
  let second : Declaration := ⟨.call true c, '"', "import(".toList, by decide, by decide, by decide⟩
  have unambiguous : ∀ declaration ∈ [first, second], declaration.opening.Unambiguous := by decide
  have text : String.ofList ([first, second].flatMap Declaration.text) =
      "import \x7b\n  a,\n  $b\n\x7d from 'export * from ';\n" ++
        "const $import = require(\"import(\");\n" := by
    decide
  have all := references_declarations (.inr rfl : Language.javaScript = .typeScript ∨ _) unambiguous
  rwa [text] at all

/-- The word `import` is found in a name that ends in it behind a `$`. -/
theorem references_declarations_dollar :
    ¬ ∀ declarations : List Declaration,
      references .typeScript (String.ofList (declarations.flatMap Declaration.text)) =
        written 1 declarations := by
  intro all
  let name : Identifier := ⟨"$import".toList, by decide, by decide, by decide⟩
  let names : Clause := .named ⟨⟨[' '], by decide⟩, name, ⟨[' '], by decide⟩⟩ [] none
  let declaration : Declaration :=
    ⟨.statement true names, '\'', "./m".toList, by decide, by decide, by decide⟩
  have text : String.ofList ([declaration].flatMap Declaration.text) =
      "export \x7b $import \x7d from './m';\n" := by
    decide
  have both : found .typeScript "export \x7b $import \x7d from './m';\n".toList =
      [([(⟨some '\'', 25, 1⟩, ['.', '/', 'm'])], .import), ([], .require), ([], .dynamicImport),
        ([(⟨some '\'', 25, 1⟩, ['.', '/', 'm'])], .export)] := by
    decide
  have twice : references .typeScript "export \x7b $import \x7d from './m';\n" =
      [⟨"./m", .import, 1⟩, ⟨"./m", .export, 1⟩] := by
    rw [references, both, merge_of_pairwise (by decide)]
    decide
  have once := all [declaration]
  rw [text, twice] at once
  exact absurd once (by decide)

end Extract

end FileGraph
