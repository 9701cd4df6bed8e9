import FileGraph.Text.Decimal
import FileGraph.Text.Split

/-! # Numbers and moments of time in TOML

Each function reads one form at the beginning of a text and answers how it is written and what
follows, or nothing if the text begins with no such form.

* `integer?`: whole numbers, in four bases, that fit into 64 bits with a sign.
* `float?`: numbers with a fraction or an exponent, infinities, and `nan`.
* `moment?`: dates, times of day, and both together.
-/

namespace FileGraph.Toml

open Text (after?)
open Text.Decimal (isDigit value)

/-- Reads one form at the beginning of a text. -/
abbrev Reader (α : Type) := List Char → Option (α × List Char)

/-- The text in front of `rest`. -/
def readUpTo (text rest : List Char) : String :=
  String.ofList (text.take (text.length - rest.length))

/-! ## Digits -/

/-- Digits of a class with single underscores between them. An underscore must be followed by a
digit. -/
def furtherDigits (inClass : Char → Bool) : Reader (List Char)
  | [] => some ([], [])
  | '_' :: text =>
    match text with
    | [] => none
    | d :: rest =>
      if inClass d then (furtherDigits inClass rest).map fun (ds, rest) => (d :: ds, rest)
      else none
  | d :: rest =>
    if inClass d then (furtherDigits inClass rest).map fun (ds, rest) => (d :: ds, rest)
    else some ([], d :: rest)

/-- At least one digit of a class, with underscores between digits. -/
def someDigits (inClass : Char → Bool) : Reader (List Char)
  | [] => none
  | d :: rest =>
    if inClass d then (furtherDigits inClass rest).map fun (ds, rest) => (d :: ds, rest) else none

/-- A sign, if there is one: whether it is a minus. -/
def sign : List Char → Bool × List Char
  | '-' :: rest => (true, rest)
  | '+' :: rest => (false, rest)
  | text => (false, text)

/-- The digits of a whole number without leading zeros. -/
def wholeDigits : Reader (List Char)
  | '0' :: rest => some (['0'], rest)
  | text => someDigits isDigit text

/-! ## Whole numbers -/

def isHexDigit (c : Char) : Bool :=
  isDigit c || ('a' ≤ c && c ≤ 'f') || ('A' ≤ c && c ≤ 'F')

def hexValue (c : Char) : Nat :=
  if isDigit c then c.toNat - 48
  else if 'a' ≤ c then c.toNat - 87
  else c.toNat - 55

/-- The number that digits stand for in a base. -/
def valueIn (base : Nat) (digits : List Char) : Nat :=
  digits.foldl (fun n d => n * base + hexValue d) 0

/-- Beyond this, positive whole numbers do not fit. -/
def integerLimit : Nat := UInt64.size / 2

/-- A whole number in another base, behind the two characters that announce the base. -/
def integerIn? (base : Nat) (inClass : Char → Bool) (text : List Char) : Option (List Char) := do
  let (digits, rest) ← someDigits inClass text
  if valueIn base digits < integerLimit then some rest else none

def integer? : Reader String := fun text => do
  let rest ←
    match text with
    | '0' :: 'x' :: digits => integerIn? 16 isHexDigit digits
    | '0' :: 'o' :: digits => integerIn? 8 (fun c => '0' ≤ c && c ≤ '7') digits
    | '0' :: 'b' :: digits => integerIn? 2 (fun c => c == '0' || c == '1') digits
    | _ => do
      let (negative, unsigned) := sign text
      let (digits, rest) ← wholeDigits unsigned
      if value digits < integerLimit ∨ (negative ∧ value digits = integerLimit) then some rest
      else none
  return (readUpTo text rest, rest)

/-! ## Floats -/

/-- The least number that is rounded to no finite float of double precision. -/
def infinityBound : Nat := 1 <<< 1024 - 1 <<< 970

/-- Whether `significand` times ten to the `power` is rounded to no finite float. -/
def isInfinite (significand : Nat) (power : Int) : Bool :=
  let size : Int := (Text.Decimal.digits significand).length + power
  if significand = 0 ∨ size ≤ 308 then false
  else if 310 ≤ size then true
  else if 0 ≤ power then infinityBound ≤ significand * Nat.pow 10 power.toNat
  else infinityBound * Nat.pow 10 (-power).toNat ≤ significand

/-- The digits behind a decimal point, if there is one. -/
def fraction : Reader (List Char)
  | '.' :: rest => someDigits isDigit rest
  | text => some ([], text)

/-- The sign and the digits of an exponent. -/
def exponent? : Reader (Bool × List Char)
  | [] => none
  | c :: rest =>
    if c = 'e' ∨ c = 'E' then
      let (negative, unsigned) := sign rest
      (someDigits isDigit unsigned).map fun (digits, rest) => ((negative, digits), rest)
    else none

/-- Whether a text begins with the letter of an exponent. -/
def announcesExponent : List Char → Bool
  | c :: _ => c == 'e' || c == 'E'
  | [] => false

/-- A number with a fraction, an exponent or both. A positive one must not be beyond all floats. -/
def decimalFloat? (text : List Char) : Option (List Char) := do
  let (negative, unsigned) := sign text
  let (whole, rest) ← wholeDigits unsigned
  let (fraction, rest) ← fraction rest
  let ((down, places), rest) ←
    if fraction = [] ∨ announcesExponent rest then exponent? rest else some ((false, []), rest)
  let power : Int := (if down then -1 else 1) * value places - fraction.length
  if !negative && isInfinite (value (whole ++ fraction)) power then none else some rest

/-- An infinity or `nan`. -/
def specialFloat? (text : List Char) : Option (List Char) :=
  let unsigned := (sign text).2
  after? ['i', 'n', 'f'] unsigned <|> after? ['n', 'a', 'n'] unsigned

def float? : Reader String := fun text => do
  let rest ← decimalFloat? text <|> specialFloat? text
  return (readUpTo text rest, rest)

/-! ## Moments of time -/

/-- A number of exactly `count` digits. -/
def digitsOf (count : Nat) : Reader Nat := fun text =>
  let digits := text.take count
  if digits.length = count ∧ digits.all isDigit then some (value digits, text.drop count) else none

/-- A number of two digits between two bounds. -/
def twoDigits (low high : Nat) : Reader Nat := fun text => do
  let (n, rest) ← digitsOf 2 text
  if low ≤ n ∧ n ≤ high then some (n, rest) else none

def daysIn (year month : Nat) : Nat :=
  if month = 2 then
    if year % 4 = 0 ∧ (year % 100 ≠ 0 ∨ year % 400 = 0) then 29 else 28
  else if month = 4 ∨ month = 6 ∨ month = 9 ∨ month = 11 then 30
  else 31

/-- A date: four digits, two and two, with hyphens between. -/
def date? (text : List Char) : Option (List Char) := do
  let (year, rest) ← digitsOf 4 text
  let rest ← after? ['-'] rest
  let (month, rest) ← twoDigits 1 12 rest
  let rest ← after? ['-'] rest
  let (_, rest) ← twoDigits 1 (daysIn year month) rest
  return rest

def time? (text : List Char) : Option (List Char) := do
  let (_, rest) ← twoDigits 0 23 text
  let rest ← after? [':'] rest
  let (_, rest) ← twoDigits 0 59 rest
  let rest ← after? [':'] rest
  let (_, rest) ← twoDigits 0 60 rest
  match rest with
  | '.' :: d :: later => return if isDigit d then later.dropWhile isDigit else rest
  | _ => return rest

/-- The distance of a time from the universal one. -/
def zone? : List Char → Option (List Char)
  | 'Z' :: rest | 'z' :: rest => some rest
  | '+' :: rest | '-' :: rest => do
    let (_, rest) ← twoDigits 0 23 rest
    let rest ← after? [':'] rest
    let (_, rest) ← twoDigits 0 59 rest
    return rest
  | _ => none

/-- A time of day behind the letter or the space that joins it to a date. -/
def joinedTime? : List Char → Option (List Char)
  | 'T' :: rest | 't' :: rest | ' ' :: rest => do
    let rest ← time? rest
    return (zone? rest).getD rest
  | _ => none

/-- A date, a date with a time, or a time. -/
def moment? : Reader String := fun text => do
  let rest ←
    match date? text with
    | some rest => some ((joinedTime? rest).getD rest)
    | none => time? text
  return (readUpTo text rest, rest)

end FileGraph.Toml
