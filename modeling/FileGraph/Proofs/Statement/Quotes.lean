import FileGraph.Proofs.Statement.Reads
import Mathlib.Data.List.DropRight

/-! # The quotation marks of a statement

A statement of a script has two quotation marks, with its target between them. What stands in front
of the first is told by `FromFront` and `CallFront`; it holds no quotation mark of its own, so that
the first one ahead decides which target a statement can have.

* `Quotes`: a text cut at its first quotation mark, with a target behind it.
* `fromStatement_eq_some`, `call_eq_some`: what statements look like.
* `reading_importFrom`, `reading_requireCall`, …: what they read.
-/

namespace FileGraph.Statement.Script

open Text

variable {text target behind rest : List Char} {hit : Hit}

/-- A target in quotation marks, with `front` in front of the first of them. -/
structure Quotes (text front : List Char) (first : Char) (target : List Char) (last : Char)
    (rest : List Char) : Prop where
  shape : text = front ++ first :: (target ++ last :: rest)
  unquoted : ∀ c ∈ front, isQuote c = false
  opens : isQuote first = true
  closes : isQuote last = true
  filled : target ≠ []
  inside : ∀ c ∈ target, isQuote c = false ∧ c ≠ '\n'

theorem quotes_of_quoted? (read : quoted? text = some (target, behind, rest)) :
    ∃ first last, behind = last :: rest ∧ Quotes text [] first target last rest := by
  obtain ⟨first, last, opens, closes, shape, rfl, filled, plain⟩ := delimited?_eq_some read
  exact ⟨first, last, shape, rfl, by simp, opens, closes, filled, plain⟩

theorem Quotes.prepend {front : List Char} {first last : Char}
    (quotes : Quotes text front first target last rest) {more : List Char}
    (unquoted : ∀ c ∈ more, isQuote c = false) :
    Quotes (more ++ text) (more ++ front) first target last rest :=
  { quotes with
    shape := by rw [quotes.shape, List.append_assoc]
    unquoted := List.forall_mem_append.2 ⟨unquoted, quotes.unquoted⟩ }

theorem Quotes.eq_of_front {front front' target rest rest' : List Char} {first first' last : Char}
    (quotes : Quotes (front' ++ first' :: rest') front first target last rest)
    (unquoted : ∀ c ∈ front', isQuote c = false) (opens : isQuote first' = true) :
    front = front' ∧ rest' = target ++ last :: rest := by
  -- Both are what stands in front of the first quotation mark.
  have before : (front' ++ first' :: rest').takeWhile (!isQuote ·) = front' := by
    rw [List.takeWhile_append_of_pos (by simpa using unquoted),
      List.takeWhile_cons_of_neg (by simp [opens]), List.append_nil]
  have before' : (front' ++ first' :: rest').takeWhile (!isQuote ·) = front := by
    rw [quotes.shape, List.takeWhile_append_of_pos (by simpa using quotes.unquoted),
      List.takeWhile_cons_of_neg (by simp [quotes.opens]), List.append_nil]
  obtain rfl : front = front' := before'.symm.trans before
  exact ⟨rfl, (List.cons.inj (List.append_cancel_left quotes.shape)).2⟩

theorem isQuote_eq_false_of_isBlankChar {c : Char} (blank : isBlankChar c = true) :
    isQuote c = false := by
  rw [Bool.eq_false_iff]
  intro quote
  obtain rfl | rfl : c = '\'' ∨ c = '"' := by simpa [isQuote] using quote
  all_goals exact absurd blank (by decide)

theorem quotes_of_blanks (read : quoted? (text.dropWhile isBlankChar) = some (target, behind, rest)) :
    ∃ gap first last, (∀ c ∈ gap, isBlankChar c = true) ∧ behind = last :: rest ∧
      Quotes text gap first target last rest := by
  obtain ⟨first, last, shape, quotes⟩ := quotes_of_quoted? read
  have blanks : ∀ c ∈ text.takeWhile isBlankChar, isBlankChar c = true :=
    fun c member => List.mem_takeWhile_imp member
  have all := quotes.prepend fun c member => isQuote_eq_false_of_isBlankChar (blanks c member)
  rw [List.takeWhile_append_dropWhile, List.append_nil] at all
  exact ⟨_, first, last, blanks, shape, all⟩

theorem importWord_unquoted : ∀ c ∈ importWord, isQuote c = false :=
  List.all_iff_forall_prop.1 (by decide)

theorem exportWord_unquoted : ∀ c ∈ exportWord, isQuote c = false :=
  List.all_iff_forall_prop.1 (by decide)

theorem requireWord_unquoted : ∀ c ∈ requireWord, isQuote c = false :=
  List.all_iff_forall_prop.1 (by decide)

theorem fromWord_unquoted : ∀ c ∈ fromWord, isQuote c = false :=
  List.all_iff_forall_prop.1 (by decide)

theorem fromClause?_eq_some (read : fromClause? text = some (target, behind, rest)) :
    ∃ gap first last, (∀ c ∈ gap, isBlankChar c = true) ∧ behind = last :: rest ∧
      Quotes text (fromWord ++ gap) first target last rest := by
  obtain ⟨behindWord, word, quoted⟩ := Option.bind_eq_some_iff.1 read
  obtain ⟨gap, first, last, blanks, shape, quotes⟩ := quotes_of_blanks quoted
  rw [after?_eq_some_iff.1 word]
  exact ⟨gap, first, last, blanks, shape, quotes.prepend fromWord_unquoted⟩

theorem firstFromClause?_eq_some {before : Option Char}
    (read : firstFromClause? before text = some (target, behind, rest)) :
    ∃ bindings gap first last, (∀ c ∈ gap, isBlankChar c = true) ∧ behind = last :: rest ∧
      Quotes text (bindings ++ (fromWord ++ gap)) first target last rest := by
  fun_induction firstFromClause? before text with
  | case1 => cases read
  | case2 before c rest' clause here =>
    obtain rfl := Option.some.inj read
    split at here
    next =>
      obtain ⟨gap, first, last, blanks, shape, quotes⟩ := fromClause?_eq_some here
      exact ⟨[], gap, first, last, blanks, shape, quotes⟩
    next => cases here
  | case3 => cases read
  | case4 before c rest' _ plain ih =>
    obtain ⟨bindings, gap, first, last, blanks, shape, quotes⟩ := ih read
    have unquoted : ∀ d ∈ [c], isQuote d = false := by simp_all
    exact ⟨c :: bindings, gap, first, last, blanks, shape, quotes.prepend unquoted⟩

/-! ## What stands in front of the quotation marks -/

theorem rdropWhile_blanks {c : Char} (solid : isBlankChar c = false) (front : List Char)
    {gap : List Char} (blanks : ∀ d ∈ gap, isBlankChar d = true) :
    (front ++ c :: gap).rdropWhile isBlankChar = front ++ [c] := by
  have turned : ∀ d ∈ gap.reverse, isBlankChar d = true :=
    fun d member => blanks d (List.mem_reverse.1 member)
  simp [List.rdropWhile, List.dropWhile_append_of_pos turned, solid]

theorem eq_of_blanks {c c' : Char} (solid : isBlankChar c = false) (solid' : isBlankChar c' = false)
    {front front' gap gap' : List Char} (blanks : ∀ d ∈ gap, isBlankChar d = true)
    (blanks' : ∀ d ∈ gap', isBlankChar d = true) (same : front ++ c :: gap = front' ++ c' :: gap') :
    front = front' ∧ c = c' := by
  have solids := congrArg (List.rdropWhile isBlankChar) same
  rw [rdropWhile_blanks solid front blanks, rdropWhile_blanks solid' front' blanks'] at solids
  have ends := List.append_inj' solids rfl
  exact ⟨ends.1, (List.cons.inj ends.2).1⟩

/-- `word …from` in front of a quotation mark. -/
def FromFront (word front : List Char) : Prop :=
  ∃ blank bindings gap, isBlankChar blank = true ∧ (∀ c ∈ gap, isBlankChar c = true) ∧
    front = word ++ blank :: (bindings ++ (fromWord ++ gap))

/-- `word(` in front of a quotation mark. -/
def CallFront (word front : List Char) : Prop :=
  ∃ gap gap', (∀ c ∈ gap, isBlankChar c = true) ∧ (∀ c ∈ gap', isBlankChar c = true) ∧
    front = word ++ (gap ++ '(' :: gap')

theorem Quotes.within {front : List Char} {first last : Char} (trail later : List Char)
    (quotes : Quotes text front first target last (trail ++ later)) :
    Hit.within text target (last :: (trail ++ later)) later =
      ⟨front ++ [first], target, last :: trail⟩ := by
  have cut := within_eq (front ++ [first]) target (last :: trail) later
  rw [quotes.shape]
  simpa using cut

section

variable {word : List Char} {before : Option Char} (unquoted : ∀ c ∈ word, isQuote c = false)

include unquoted

theorem fromStatement_eq_some (found : fromStatement word before text = some hit) :
    outsideWord before = true ∧ ∃ front first target last rest, FromFront word front ∧
      Quotes text front first target last rest ∧ hit = ⟨front ++ [first], target, [last]⟩ := by
  simp only [fromStatement, Option.bind_eq_bind, Option.bind_eq_some_iff, Option.pure_def,
    Option.some.injEq] at found
  obtain ⟨_, outside, behindWord, opened, inside, skipped, ⟨target, behind, rest⟩, clause, rfl⟩ :=
    found
  obtain ⟨bindings, gap, first, last, blanks, rfl, quotes⟩ := firstFromClause?_eq_some clause
  obtain ⟨blank, later, isBlank, rfl⟩ := exists_of_skipSome? skipped
  rw [skipSome?, if_pos isBlank, Option.some.injEq] at skipped
  obtain rfl := after?_eq_some_iff.1 opened
  -- Word, blanks and bindings are put back in front of the clause, one after another.
  have skippedBlanks : ∀ c ∈ later.takeWhile isBlankChar, isQuote c = false :=
    fun c member => isQuote_eq_false_of_isBlankChar (List.mem_takeWhile_imp member)
  have ownBlank : ∀ c ∈ [blank], isQuote c = false :=
    List.forall_mem_singleton.2 (isQuote_eq_false_of_isBlankChar isBlank)
  have whole := ((quotes.prepend skippedBlanks).prepend ownBlank).prepend unquoted
  rw [← skipped, List.takeWhile_append_dropWhile, List.singleton_append] at whole
  refine ⟨by simpa [guard] using outside, _, first, target, last, rest, ?_, whole,
    whole.within [] rest⟩
  exact ⟨blank, later.takeWhile isBlankChar ++ bindings, gap, isBlank, blanks, by simp⟩

theorem call_eq_some (found : call word before text = some hit) :
    outsideWord before = true ∧ ∃ front first target last trail later, CallFront word front ∧
      Quotes text front first target last (trail ++ later) ∧
      hit = ⟨front ++ [first], target, last :: trail⟩ := by
  simp only [call, Option.bind_eq_bind, Option.bind_eq_some_iff, Option.pure_def,
    Option.some.injEq] at found
  obtain ⟨_, outside, behindWord, opened, inside, parenthesis, ⟨target, behind, rest⟩, quoted, later,
    closed, rfl⟩ := found
  obtain ⟨gap, first, last, blanks, rfl, quotes⟩ := quotes_of_blanks quoted
  obtain ⟨c, isOpening, shape⟩ := exists_of_skipOne? parenthesis
  obtain rfl : c = '(' := by simpa using isOpening
  obtain ⟨c', isClosing, shape'⟩ := exists_of_skipOne? closed
  obtain rfl : c' = ')' := by simpa using isClosing
  obtain rfl := after?_eq_some_iff.1 opened
  have skippedBlanks : ∀ c ∈ behindWord.takeWhile isBlankChar, isQuote c = false :=
    fun c member => isQuote_eq_false_of_isBlankChar (List.mem_takeWhile_imp member)
  have ownOpening : ∀ c ∈ ['('], isQuote c = false := List.forall_mem_singleton.2 (by decide)
  have whole := ((quotes.prepend ownOpening).prepend skippedBlanks).prepend unquoted
  rw [List.singleton_append, ← shape, List.takeWhile_append_dropWhile] at whole
  have trail : rest = (rest.takeWhile isBlankChar ++ [')']) ++ later := by
    rw [List.append_assoc, List.singleton_append, ← shape', List.takeWhile_append_dropWhile]
  rw [trail] at whole ⊢
  refine ⟨by simpa [guard] using outside, _, first, target, last, _, later, ?_, whole,
    whole.within _ later⟩
  exact ⟨behindWord.takeWhile isBlankChar, gap, fun c member => List.mem_takeWhile_imp member, blanks,
    by simp⟩

omit unquoted in
theorem Quotes.reads {front : List Char} {first last : Char} (trail later : List Char)
    (quotes : Quotes text front first target last (trail ++ later)) :
    Reads text target (last :: (trail ++ later)) later where
  fits := ⟨front ++ [first], by simp [quotes.shape]⟩
  part := ⟨last :: trail, rfl⟩
  plain := ⟨quotes.filled, fun member => (quotes.inside _ member).2 rfl⟩

theorem reading_fromStatement : Recogniser.Reading (fromStatement word) := by
  intro before text hit found
  obtain ⟨-, front, first, target, last, rest, -, quotes, rfl⟩ := fromStatement_eq_some unquoted found
  exact ⟨target, last :: rest, rest, quotes.reads [] rest, (quotes.within [] rest).symm⟩

theorem reading_call : Recogniser.Reading (call word) := by
  intro before text hit found
  obtain ⟨-, front, first, target, last, trail, later, -, quotes, rfl⟩ := call_eq_some unquoted found
  exact ⟨target, _, later, quotes.reads trail later, (quotes.within trail later).symm⟩

end

theorem reading_importFrom : Recogniser.Reading importFrom :=
  reading_fromStatement importWord_unquoted

theorem reading_exportFrom : Recogniser.Reading exportFrom :=
  reading_fromStatement exportWord_unquoted

theorem reading_requireCall : Recogniser.Reading requireCall :=
  reading_call requireWord_unquoted

theorem reading_importCall : Recogniser.Reading importCall :=
  reading_call importWord_unquoted

end FileGraph.Statement.Script
