import FileGraph.Json.Problem
import FileGraph.Text.Decimal

/-! # Reading JSON numbers

* `NumberText`: the parts of a written number.
* `numberText`: reads one.
* `NumberText.isTooLarge`: whether a number is beyond the largest double-precision float, with the
  significand cut to 64 bits first.
* `NumberText.natural?`: the natural number, if a number is written as one.
-/

namespace FileGraph.Json

open Text.Decimal (isDigit digitValue value)

/-- A written number, taken apart. -/
structure NumberText where
  negative : Bool
  whole : List Char
  /-- The digits behind a decimal point. -/
  fraction : Option (List Char)
  /-- Whether the exponent is negative, and its digits. -/
  exponent : Option (Bool × List Char)
  deriving DecidableEq, Repr

namespace NumberText

/-- The number as it is written; the plus sign of an exponent is left out. -/
def render (n : NumberText) : List Char :=
  (if n.negative then ['-'] else []) ++ n.whole ++
    (match n.fraction with
      | none => []
      | some digits => '.' :: digits) ++
    match n.exponent with
    | none => []
    | some (negative, digits) => 'e' :: ((if negative then ['-'] else []) ++ digits)

/-- The natural number that is written: without a sign, a fraction or an exponent. -/
def natural? (n : NumberText) : Option Nat :=
  match n.negative, n.fraction, n.exponent with
  | false, none, none => some (value n.whole)
  | _, _, _ => none

/-! ## The range of floats -/

/-- How large a significand may be while its digits are gathered. -/
def significandLimit : Nat := UInt64.size

/-- Digits added to a significand as long as it stays below the limit, and those that are left. -/
def gather : (significand : Nat) → List Char → Nat × List Char
  | s, [] => (s, [])
  | s, d :: rest =>
    let next := s * 10 + digitValue d
    if next < significandLimit then gather next rest else (s, d :: rest)

/-- A significand below 2 to the 64 and a power of ten, the product of which stands for the size of
a number. Digits of the whole part that do not fit count as places, those of the fraction are
dropped. -/
def scaled (n : NumberText) : Nat × Int :=
  let (whole, dropped) := gather 0 n.whole
  let fraction := n.fraction.getD []
  let (significand, unused) := gather whole fraction
  -- Each digit of the whole part that is dropped is worth a place, each one of the fraction that is
  -- taken in costs one.
  let places : Int := dropped.length - (fraction.length - unused.length : Nat)
  match n.exponent with
  | none => (significand, places)
  | some (true, digits) => (significand, places - value digits)
  | some (false, digits) => (significand, places + value digits)

/-- A natural number rounded to 53 significant binary digits, a tie going to the even
neighbour. -/
def round53 (n : Nat) : Nat :=
  let unit := 1 <<< (n.log2 - 52)
  let quotient := n / unit
  let remainder := n % unit
  let up := unit < 2 * remainder || (2 * remainder == unit && quotient % 2 == 1)
  (if up then quotient + 1 else quotient) * unit

/-- The least number that is rounded to no finite float. -/
def infinityBound : Nat := 1 <<< 1024 - 1 <<< 970

/-- Whether a number is beyond the largest float: the float next to its significand times the float
next to its power of ten. -/
def isTooLarge (n : NumberText) : Bool :=
  let (significand, power) := n.scaled
  significand != 0 &&
    (308 < power ||
      (0 ≤ power && infinityBound ≤ round53 significand * round53 (Nat.pow 10 power.toNat)))

end NumberText

/-! ## Reading -/

/-- Digits, of which there must be at least one. `cut` is the problem of a text that ends instead
of the first digit. -/
def someDigits (cut : Problem) : Reader (List Char)
  | [] => .error cut
  | c :: rest =>
    if isDigit c then .ok (c :: rest.takeWhile isDigit, rest.dropWhile isDigit)
    else .error .malformed

/-- The whole part of a number: a zero, or digits of which the first is none. -/
def wholePart (cut : Problem) (text : List Char) : Except Problem (List Char × List Char) := do
  let (digits, rest) ← someDigits cut text
  match digits with
  | '0' :: _ :: _ => .error .malformed
  | _ => .ok (digits, rest)

def fractionPart (cut : Problem) : Reader (Option (List Char))
  | '.' :: rest => do
    let (digits, rest) ← someDigits cut rest
    .ok (some digits, rest)
  | text => .ok (none, text)

def exponentPart (cut : Problem) (text : List Char) :
    Except Problem (Option (Bool × List Char) × List Char) := do
  match text with
  | c :: rest =>
    if c = 'e' ∨ c = 'E' then
      let (negative, rest) :=
        match rest with
        | '-' :: rest => (true, rest)
        | '+' :: rest => (false, rest)
        | _ => (false, rest)
      let (digits, rest) ← someDigits cut rest
      .ok (some (negative, digits), rest)
    else .ok (none, text)
  | [] => .ok (none, [])

/-- A number, of whatever size. -/
def numberShape (cut : Problem) (text : List Char) :
    Except Problem (NumberText × List Char) := do
  let (negative, rest) :=
    match text with
    | '-' :: rest => (true, rest)
    | _ => (false, text)
  let (whole, rest) ← wholePart cut rest
  let (fraction, rest) ← fractionPart cut rest
  let (exponent, rest) ← exponentPart cut rest
  .ok (⟨negative, whole, fraction, exponent⟩, rest)

/-- A number in the range of floats. -/
def numberText : Reader NumberText := fun text => do
  let (number, rest) ← numberShape .truncated text
  if number.isTooLarge then .error .malformed else .ok (number, rest)

/-- Passes over a number whose value is not asked for. Its end in the middle is an offence against
the grammar, and its size does not matter. -/
def skipNumber (text : List Char) : Except Problem (List Char) := do
  let (_, rest) ← numberShape .malformed text
  .ok rest

end FileGraph.Json
