import FileGraph.Proofs.Json.Grammar
import FileGraph.Proofs.Json.Scalar

/-! # Texts and numbers in any spelling are read

A string and a number can be spelled in many ways. Each of them is read as what it stands for, and
passed over where that is not asked for.

* `stringBody_of_spells`, `skipString_of_spells`: strings.
* `Stops`: what can stand behind a value in an array or an object.
* `numberText_of_writes`, `skipNumber_of_writes`: numbers.
-/

namespace FileGraph.Json

open Text.Decimal (isDigit)

/-! ## Texts -/

theorem letterEscape?_of_mem : ∀ pair ∈ letters, letterEscape? pair.1 = some pair.2 := by
  decide

theorem codeUnit_of_writes {digits : List Char} {unit : Nat} (writes : WritesUnit digits unit)
    (rest : List Char) : codeUnit (digits ++ rest) = .ok (unit, rest) := by
  cases writes with
  | intro first second third fourth =>
    simp only [List.cons_append, List.nil_append, codeUnit, first, second, third, fourth]

theorem escape_unit {digits rest : List Char} {unit : Nat} (writes : WritesUnit digits unit)
    (notLeading : isLeading unit = false) (notTrailing : isTrailing unit = false) :
    escape ('u' :: (digits ++ rest)) = .ok (Char.ofNat unit, rest) := by
  simp only [escape, codeUnit_of_writes writes, bind, Except.bind, notLeading, notTrailing,
    Bool.false_eq_true, ↓reduceIte]

theorem escape_pair {digits digits' rest : List Char} {first second : Nat}
    (writes : WritesUnit digits first) (leading : isLeading first = true)
    (writes' : WritesUnit digits' second) (trailing : isTrailing second = true) :
    escape ('u' :: (digits ++ '\\' :: 'u' :: (digits' ++ rest))) =
      .ok (Char.ofNat (0x10000 + (first - 0xD800) * 0x400 + (second - 0xDC00)), rest) := by
  have notTrailing : isTrailing first = false := by
    simp only [isLeading, isTrailing, Bool.and_eq_true, decide_eq_true_eq, Bool.and_eq_false_iff,
      decide_eq_false_iff_not] at leading ⊢
    omega
  simp only [escape, trailingUnit, codeUnit_of_writes writes, codeUnit_of_writes writes', bind,
    Except.bind, leading, trailing, notTrailing, Bool.false_eq_true, ↓reduceIte]

/-- Up to the closing quotation mark, what spells a text is read as that text. -/
theorem stringBody_of_spells {written text : List Char} (spells : Spells .strict written text)
    (rest : List Char) : stringBody (written ++ '"' :: rest) = .ok (text, rest) := by
  induction spells with
  | nil => rw [List.nil_append, stringBody, if_pos rfl]
  | plain noQuote noBackslash noControl _ ih =>
    rw [List.cons_append, stringBody, if_neg noQuote, if_neg noBackslash,
      if_neg (Nat.not_lt.2 noControl), ih]
    rfl
  | letter known _ ih =>
    have single := escape_letter (letterEscape?_of_mem _ known)
    rw [List.cons_append, List.cons_append, stringBody_escape (single _), ih]
    rfl
  | unit writes notLeading notTrailing _ ih =>
    rw [List.cons_append, List.cons_append, List.append_assoc,
      stringBody_escape (escape_unit writes notLeading notTrailing), ih]
    rfl
  | pair writes leading writes' trailing _ ih =>
    simp only [List.cons_append, List.append_assoc]
    rw [stringBody_escape (escape_pair writes leading writes' trailing), ih]
    rfl
  | lone allowed => exact allowed.elim

theorem stringBody_quoted (text rest : List Char) :
    stringBody (text.flatMap escaped ++ '"' :: rest) = .ok (text, rest) :=
  stringBody_of_spells (spells_escaped text) rest

theorem skipString_letter {letter : Char} (known : (letterEscape? letter).isSome = true)
    (rest : List Char) : skipString ('\\' :: letter :: rest) = skipString rest := by
  have apart : letter ≠ 'u' := by
    rintro rfl
    simp [letterEscape?] at known
  rw [skipString, if_neg (by decide), if_pos rfl]
  simp only [apart, known, ↓reduceIte]

theorem skipString_unit {digits rest : List Char} {unit : Nat} (writes : WritesUnit digits unit) :
    skipString ('\\' :: 'u' :: (digits ++ rest)) = skipString rest := by
  have read := codeUnit_of_writes writes rest
  rw [skipString, if_neg (by decide), if_pos rfl]
  simp only [↓reduceIte]
  split
  next failed => simp [read] at failed
  next found =>
    obtain ⟨rfl, rfl⟩ := Prod.mk.inj (Except.ok.inj (read.symm.trans found))
    rfl

theorem skipString_of_spells {rules : Rules} {written text : List Char}
    (spells : Spells rules written text) (rest : List Char) :
    skipString (written ++ '"' :: rest) = .ok rest := by
  induction spells with
  | nil => rw [List.nil_append, skipString.eq_def]; exact if_pos rfl
  | plain noQuote noBackslash noControl _ ih =>
    rw [List.cons_append, skipString.eq_def]
    simp only [noQuote, noBackslash, Nat.not_lt.2 noControl, ↓reduceIte, ih]
  | letter known _ ih =>
    have isSome := Option.isSome_of_eq_some (letterEscape?_of_mem _ known)
    rw [List.cons_append, List.cons_append, skipString_letter isSome, ih]
  | unit writes _ _ _ ih =>
    rw [List.cons_append, List.cons_append, List.append_assoc, skipString_unit writes, ih]
  | pair writes _ writes' _ _ ih =>
    simp only [List.cons_append, List.append_assoc]
    rw [skipString_unit writes, skipString_unit writes', ih]
  | lone _ writes _ _ ih =>
    rw [List.cons_append, List.cons_append, List.append_assoc, skipString_unit writes, ih]

/-! ## Numbers -/

/-- What can stand behind a value: nothing, white space, a comma or a closing bracket. -/
def Stops (rest : List Char) : Prop :=
  ∀ c ∈ rest.head?, isBlank c = true ∨ c = ',' ∨ c = ']' ∨ c = '\x7d'

namespace Stops

theorem nil : Stops [] :=
  fun _ first => nomatch first

theorem cons {c : Char} (rest : List Char) (stop : c = ',' ∨ c = ']' ∨ c = '\x7d') :
    Stops (c :: rest) := by
  intro d first
  obtain rfl := Option.some.inj first
  exact .inr stop

theorem append {blank rest : List Char} (blanks : Blank blank) (stops : Stops rest) :
    Stops (blank ++ rest) := by
  cases blank with
  | nil => exact stops
  | cons b blank =>
    intro c first
    obtain rfl := Option.some.inj first
    exact .inl (blanks _ List.mem_cons_self)

theorem ends {rest : List Char} (stops : Stops rest) {c : Char} (first : c ∈ rest.head?) :
    isDigit c = false ∧ c ≠ '.' ∧ c ≠ 'e' ∧ c ≠ 'E' := by
  have stop := stops c first
  simp only [isBlank, Bool.or_eq_true, beq_iff_eq] at stop
  rcases stop with (((rfl | rfl) | rfl) | rfl) | rfl | rfl | rfl <;> decide

end Stops

theorem Ended.stops {rest : List Char} (ended : Ended rest) : Stops rest := by
  intro c first
  cases ended c first with
  | inl comma => exact .inr (.inl comma)
  | inr newline => exact .inl (newline ▸ by decide)

theorem someDigits_append {text rest : List Char} (digits : IsDigits text) (cut : Problem)
    (ended : ∀ c ∈ rest.head?, isDigit c = false) :
    someDigits cut (text ++ rest) = .ok (text, rest) := by
  obtain ⟨c, more, rfl⟩ := List.exists_cons_of_ne_nil digits.1
  have others : ∀ d ∈ more, isDigit d = true :=
    fun d member => digits.2 d (List.mem_cons_of_mem c member)
  obtain ⟨taken, left⟩ := takeWhile_digits others ended
  rw [List.cons_append, someDigits, if_pos (digits.2 c List.mem_cons_self), taken, left]

theorem wholePart_append {text rest : List Char} (whole : IsWhole text) (cut : Problem)
    (ended : ∀ c ∈ rest.head?, isDigit c = false) :
    wholePart cut (text ++ rest) = .ok (text, rest) := by
  rw [wholePart, someDigits_append whole.1 cut ended]
  simp only [bind, Except.bind]
  split
  next second more =>
    have single := whole.2 rfl
    cases List.tail_eq_of_cons_eq single
  next => rfl

theorem fractionPart_append {fraction : Option (List Char)} {text rest : List Char}
    (writes : WritesFraction fraction text) (cut : Problem)
    (ended : ∀ c ∈ rest.head?, isDigit c = false ∧ c ≠ '.') :
    fractionPart cut (text ++ rest) = .ok (fraction, rest) := by
  cases writes with
  | none =>
    rw [List.nil_append, fractionPart]
    rintro later rfl
    exact (ended '.' rfl).2 rfl
  | some digits =>
    rw [List.cons_append, fractionPart,
      someDigits_append digits cut fun c first => (ended c first).1]
    rfl

theorem exponentPart_append {exponent : Option (Bool × List Char)} {text rest : List Char}
    (writes : WritesExponent exponent text) (cut : Problem) (stops : Stops rest) :
    exponentPart cut (text ++ rest) = .ok (exponent, rest) := by
  have ended : ∀ c ∈ rest.head?, isDigit c = false := fun c first => (stops.ends first).1
  cases writes with
  | none =>
    cases rest with
    | nil => rfl
    | cons c rest =>
      obtain ⟨-, -, lower, upper⟩ := stops.ends (c := c) rfl
      simp [exponentPart, lower, upper]
  | bare letter digits =>
    have read := someDigits_append digits cut ended
    obtain ⟨d, more, rfl⟩ := List.exists_cons_of_ne_nil digits.1
    have first := digits.2 d List.mem_cons_self
    -- A digit is no sign, so the digits begin right behind the letter.
    have unsigned : d ≠ '-' ∧ d ≠ '+' := by
      constructor
      all_goals
        rintro rfl
        exact absurd first (by decide)
    rw [List.cons_append, List.cons_append] at *
    simp only [exponentPart, letter, ↓reduceIte]
    split
    next minus => exact absurd (List.cons.inj minus).1 unsigned.1
    next plus => exact absurd (List.cons.inj plus).1 unsigned.2
    next =>
      rw [read]
      rfl
  | plus letter digits =>
    simp only [List.cons_append, exponentPart, letter, ↓reduceIte,
      someDigits_append digits cut ended]
    rfl
  | minus letter digits =>
    simp only [List.cons_append, exponentPart, letter, ↓reduceIte,
      someDigits_append digits cut ended]
    rfl

/-- The fraction and the exponent do not begin with a digit, nor the exponent with a point. -/
theorem WritesExponent.ends {exponent : Option (Bool × List Char)} {text rest : List Char}
    (writes : WritesExponent exponent text) (stops : Stops rest) :
    ∀ c ∈ (text ++ rest).head?, isDigit c = false ∧ c ≠ '.' := by
  intro c first
  cases writes with
  | none => exact ⟨(stops.ends first).1, (stops.ends first).2.1⟩
  | bare letter | plus letter | minus letter =>
    obtain rfl := Option.some.inj first
    rcases letter with rfl | rfl <;> decide

theorem WritesFraction.ends {fraction : Option (List Char)} {text rest : List Char}
    (writes : WritesFraction fraction text) (ended : ∀ c ∈ rest.head?, isDigit c = false) :
    ∀ c ∈ (text ++ rest).head?, isDigit c = false := by
  intro c first
  cases writes with
  | none => exact ended c first
  | some =>
    obtain rfl := Option.some.inj first
    decide

namespace WritesNumber

variable {n : NumberText} {text : List Char} (writes : WritesNumber n text)

include writes in
theorem exists_head : ∃ c more, text = c :: more ∧ (c = '-' ∨ isDigit c = true) := by
  cases writes with
  | @intro negative _ _ _ _ _ whole =>
    cases negative with
    | true => exact ⟨'-', _, rfl, .inl rfl⟩
    | false =>
      obtain ⟨c, more, rfl⟩ := List.exists_cons_of_ne_nil whole.1.1
      exact ⟨c, _, rfl, .inr (whole.1.2 c List.mem_cons_self)⟩

include writes in
theorem numberShape_append (cut : Problem) {rest : List Char} (stops : Stops rest) :
    numberShape cut (text ++ rest) = .ok (n, rest) := by
  cases writes with
  | @intro negative whole fractionText exponentText _ _ isWhole fraction exponent =>
    have third := exponentPart_append exponent cut stops
    have second := fractionPart_append fraction cut (exponent.ends stops)
    have first := wholePart_append isWhole cut
      (fraction.ends fun c first => (exponent.ends stops c first).1)
    cases negative with
    | true =>
      simp only [↓reduceIte, List.append_assoc, List.cons_append, List.nil_append, numberShape,
        first, second, third, bind, Except.bind]
    | false =>
      obtain ⟨c, more, rfl⟩ := List.exists_cons_of_ne_nil isWhole.1.1
      have unsigned : c ≠ '-' := by
        rintro rfl
        exact absurd (isWhole.1.2 '-' List.mem_cons_self) (by decide)
      simp only [Bool.false_eq_true, ↓reduceIte, List.nil_append, List.append_assoc]
      unfold numberShape
      split
      next sign =>
        split at sign
        next minus => exact absurd (List.cons.inj minus).1 unsigned
        next =>
          obtain ⟨rfl, rfl⟩ := Prod.mk.inj sign
          simp only [first, second, third, bind, Except.bind]

include writes in
theorem numberText_append (inRange : n.isTooLarge = false) {rest : List Char} (stops : Stops rest) :
    numberText (text ++ rest) = .ok (n, rest) := by
  simp only [numberText, writes.numberShape_append .truncated stops, bind, Except.bind, inRange,
    Bool.false_eq_true, ↓reduceIte]

include writes in
theorem skipNumber_append {rest : List Char} (stops : Stops rest) :
    skipNumber (text ++ rest) = .ok rest := by
  simp only [skipNumber, writes.numberShape_append .malformed stops, bind, Except.bind]

end WritesNumber

theorem writesNumber_digits (n : Nat) :
    WritesNumber ⟨false, Text.Decimal.digits n, none, none⟩ (Text.Decimal.digits n) := by
  obtain ⟨c, more, shape, -, zero⟩ := digits_eq_cons n
  have whole : IsWhole (Text.Decimal.digits n) := by
    refine ⟨⟨Text.Decimal.digits_ne_nil n, fun d => Text.Decimal.isDigit_of_mem_digits⟩, ?_⟩
    rw [shape]
    intro first
    obtain rfl := Option.some.inj first
    rw [zero rfl]
  have writes := @WritesNumber.intro false _ _ _ _ _ whole .none .none
  simpa using writes

theorem numberText_digits {n : Nat} (fits : n < NumberText.significandLimit) {rest : List Char}
    (ended : Ended rest) :
    numberText (Text.Decimal.digits n ++ rest) =
      .ok (⟨false, Text.Decimal.digits n, none, none⟩, rest) :=
  (writesNumber_digits n).numberText_append (NumberText.isTooLarge_digits fits) ended.stops

end FileGraph.Json
