import FileGraph.Proofs.Json.Scalar
import Mathlib.Data.List.Forall2

/-! # JSON as it may be written

A value can be written in many ways: with white space between its parts, with characters escaped or
not, with numbers in several forms. This module says which texts stand for which values, without
regard to how they are read.

* `Rules.strict` and `Rules.lax`: what values may hold that are read, and those that are passed over.
* `Spells` and `Quotes`: texts inside and with quotation marks.
* `WritesNumber`: numbers.
* `ArrayText` and `ObjectText`: arrays and objects with given texts of their items and members.
* `ValueText`: any value, and how deep arrays and objects are nested in it.
* `quotes_quoted`, `arrayText_compact`, `objectText_compact`: each text, array and object has a
  spelling, one that escapes no more than it must and has no white space.
-/

namespace FileGraph.Json

/-- What a text may hold. -/
structure Rules where
  /-- Whether a number is not too large. -/
  inRange : NumberText → Prop
  /-- Whether half of a pair of code units may be written alone. -/
  lone : Prop

/-- The rules for what is read: numbers are no greater than the largest float, and each escape stands
for a character. -/
def Rules.strict : Rules where
  inRange := fun n => n.isTooLarge = false
  lone := False

/-- The rules for what is passed over. -/
def Rules.lax : Rules where
  inRange := fun _ => True
  lone := True

variable (rules : Rules)

def Blank (text : List Char) : Prop :=
  ∀ c ∈ text, isBlank c = true

/-! ## Texts -/

/-- The letters behind a backslash, and the characters they stand for. -/
def letters : List (Char × Char) :=
  [('"', '"'), ('\\', '\\'), ('/', '/'), ('b', '\x08'), ('f', '\x0c'), ('n', '\n'), ('r', '\r'),
    ('t', '\t')]

/-- Four hexadecimal digits, in upper or lower case, and the code unit that they stand for. -/
inductive WritesUnit : List Char → Nat → Prop where
  | intro {a b c d : Char} {w x y z : Nat} : hexValue? a = some w → hexValue? b = some x →
      hexValue? c = some y → hexValue? d = some z →
      WritesUnit [a, b, c, d] (((w * 16 + x) * 16 + y) * 16 + z)

/-- Between quotation marks, the first text stands for the second. -/
inductive Spells : List Char → List Char → Prop where
  | nil : Spells [] []
  | plain {c : Char} {written text : List Char} : c ≠ '"' → c ≠ '\\' → 32 ≤ c.toNat →
      Spells written text → Spells (c :: written) (c :: text)
  | letter {letter c : Char} {written text : List Char} : (letter, c) ∈ letters →
      Spells written text → Spells ('\\' :: letter :: written) (c :: text)
  /-- A character by its code unit. -/
  | unit {digits written text : List Char} {unit : Nat} : WritesUnit digits unit →
      isLeading unit = false → isTrailing unit = false → Spells written text →
      Spells ('\\' :: 'u' :: (digits ++ written)) (Char.ofNat unit :: text)
  /-- A character beyond the first plane by two code units. -/
  | pair {digits digits' written text : List Char} {first second : Nat} : WritesUnit digits first →
      isLeading first = true → WritesUnit digits' second → isTrailing second = true →
      Spells written text →
      Spells ('\\' :: 'u' :: (digits ++ '\\' :: 'u' :: (digits' ++ written)))
        (Char.ofNat (0x10000 + (first - 0xD800) * 0x400 + (second - 0xDC00)) :: text)
  /-- Half of such a pair, which stands for no character. -/
  | lone {digits written text : List Char} {unit : Nat} : rules.lone → WritesUnit digits unit →
      isLeading unit = true ∨ isTrailing unit = true → Spells written text →
      Spells ('\\' :: 'u' :: (digits ++ written)) ('\uFFFD' :: text)

def Quotes (written : List Char) (text : String) : Prop :=
  ∃ inner, Spells rules inner text.toList ∧ written = '"' :: (inner ++ ['"'])

/-! ## Numbers -/

def IsDigits (text : List Char) : Prop :=
  text ≠ [] ∧ ∀ c ∈ text, Text.Decimal.isDigit c = true

/-- A zero, or digits that do not begin with one. -/
def IsWhole (text : List Char) : Prop :=
  IsDigits text ∧ (text.head? = some '0' → text = ['0'])

inductive WritesFraction : Option (List Char) → List Char → Prop where
  | none : WritesFraction none []
  | some {digits : List Char} : IsDigits digits → WritesFraction (some digits) ('.' :: digits)

inductive WritesExponent : Option (Bool × List Char) → List Char → Prop where
  | none : WritesExponent none []
  | bare {e : Char} {digits : List Char} : e = 'e' ∨ e = 'E' → IsDigits digits →
      WritesExponent (some (false, digits)) (e :: digits)
  | plus {e : Char} {digits : List Char} : e = 'e' ∨ e = 'E' → IsDigits digits →
      WritesExponent (some (false, digits)) (e :: '+' :: digits)
  | minus {e : Char} {digits : List Char} : e = 'e' ∨ e = 'E' → IsDigits digits →
      WritesExponent (some (true, digits)) (e :: '-' :: digits)

/-- A number and a text that is one of its forms. -/
inductive WritesNumber : NumberText → List Char → Prop where
  | intro {negative : Bool} {whole fractionText exponentText : List Char}
      {fraction : Option (List Char)} {exponent : Option (Bool × List Char)} : IsWhole whole →
      WritesFraction fraction fractionText → WritesExponent exponent exponentText →
      WritesNumber ⟨negative, whole, fraction, exponent⟩
        ((if negative then ['-'] else []) ++ (whole ++ (fractionText ++ exponentText)))

/-! ## Arrays and objects -/

def Padded (inner text : List Char) : Prop :=
  ∃ before behind, Blank before ∧ Blank behind ∧ text = before ++ (inner ++ behind)

/-- An array with the given texts of its items. -/
inductive ArrayText : List (List Char) → List Char → Prop where
  | empty {blank : List Char} : Blank blank → ArrayText [] ('[' :: (blank ++ [']']))
  | items {items pieces : List (List Char)} : items ≠ [] → List.Forall₂ Padded items pieces →
      ArrayText items ('[' :: (Text.joinWith ',' pieces ++ [']']))

/-- A key and the text of a value, with a colon between them and white space around them. -/
def MemberText (member : String × List Char) (text : List Char) : Prop :=
  ∃ before key between value, Blank before ∧ Quotes rules key member.1 ∧ Blank between ∧
    Padded member.2 value ∧ text = before ++ (key ++ (between ++ ':' :: value))

/-- An object with the given keys and texts of the values. -/
inductive ObjectText : List (String × List Char) → List Char → Prop where
  | empty {blank : List Char} : Blank blank → ObjectText [] ('\x7b' :: (blank ++ ['\x7d']))
  | members {members : List (String × List Char)} {pieces : List (List Char)} : members ≠ [] →
      List.Forall₂ (MemberText rules) members pieces →
      ObjectText members ('\x7b' :: (Text.joinWith ',' pieces ++ ['\x7d']))

/-! ## Values -/

/-- A value whose items and members are written as `inner` says; without it there are no arrays and
objects. Of the members of an object with one key, the last counts, in the place of the first. -/
inductive LevelText : Option (Json → List Char → Prop) → Json → List Char → Prop where
  | null {inner : Option (Json → List Char → Prop)} : LevelText inner .null nullWord
  | true {inner : Option (Json → List Char → Prop)} : LevelText inner (.bool true) trueWord
  | false {inner : Option (Json → List Char → Prop)} : LevelText inner (.bool false) falseWord
  | number {inner : Option (Json → List Char → Prop)} {n : NumberText} {text : List Char} :
      WritesNumber n text → rules.inRange n →
      LevelText inner (.number (String.ofList n.render)) text
  | string {inner : Option (Json → List Char → Prop)} {s : String} {text : List Char} :
      Quotes rules text s → LevelText inner (.string s) text
  | array {inner : Json → List Char → Prop} {values : List Json} {items : List (List Char)}
      {text : List Char} : ArrayText items text → List.Forall₂ inner values items →
      LevelText (some inner) (.array values) text
  | object {inner : Json → List Char → Prop} {entries : List (String × Json)}
      {members : List (String × List Char)} {text : List Char} : ObjectText rules members text →
      List.Forall₂ (fun entry member => entry.1 = member.1 ∧ inner entry.2 member.2) entries
        members →
      LevelText (some inner) (.object (lastValues entries)) text

/-- A value in which at most `depth` arrays and objects are nested. -/
def ValueText : (depth : Nat) → Json → List Char → Prop
  | 0 => LevelText rules none
  | depth + 1 => LevelText rules (some (ValueText depth))

/-- Objects with given entries, the values of which are nested at most `depth` deep. -/
def MappingText (depth : Nat) (entries : List (String × Json)) (text : List Char) : Prop :=
  ∃ members, ObjectText rules members text ∧ List.Forall₂ (fun entry member =>
    entry.1 = member.1 ∧ ValueText rules depth entry.2 member.2) entries members

def AnyValue (text : List Char) : Prop :=
  ∃ depth value, ValueText .lax depth value text

/-! ## A spelling for each text -/

section Compact

variable {rules : Rules}

theorem mem_letters : ∀ letter ∈ ['"', '\\', 'n', 'r', 't', 'b', 'f'], ∀ c ∈ letterEscape? letter,
    (letter, c) ∈ letters := by
  simp [letterEscape?, letters]

theorem spells_escaped (text : List Char) : Spells rules (text.flatMap escaped) text := by
  induction text with
  | nil => exact .nil
  | cons c text ih =>
    rw [List.flatMap_cons]
    by_cases special : c ∈ lettered
    · obtain ⟨letter, member, shape, known⟩ := exists_letter c special
      rw [shape]
      exact .letter (mem_letters letter member c known) ih
    · rw [escaped_of_not_mem special]
      by_cases small : c.toNat < 32
      · rw [if_pos small]
        have zero : hexValue? '0' = some 0 := by decide
        have high := hexValue?_hexDigit (c.toNat / 16) (by omega)
        have low := hexValue?_hexDigit (c.toNat % 16) (by omega)
        have same : ((0 * 16 + 0) * 16 + c.toNat / 16) * 16 + c.toNat % 16 = c.toNat := by omega
        have writes := WritesUnit.intro zero zero high low
        rw [same] at writes
        have single : isLeading c.toNat = false ∧ isTrailing c.toNat = false := by
          simp [isTrailing, isLeading]
          omega
        have spelled := @Spells.unit rules _ _ _ _ writes single.1 single.2 ih
        rwa [Char.ofNat_toNat] at spelled
      · rw [if_neg small]
        have noQuote : c ≠ '"' := fun same => special (same ▸ by decide)
        have noBackslash : c ≠ '\\' := fun same => special (same ▸ by decide)
        exact .plain noQuote noBackslash (Nat.not_lt.1 small) ih

theorem quotes_quoted (text : String) : Quotes rules (quoted text) text :=
  ⟨_, spells_escaped text.toList, rfl⟩

def compactArray (items : List (List Char)) : List Char :=
  '[' :: (Text.joinWith ',' items ++ [']'])

def compactObject (members : List (String × List Char)) : List Char :=
  '\x7b' :: (Text.joinWith ',' (members.map fun member => quoted member.1 ++ ':' :: member.2) ++
    ['\x7d'])

theorem padded_self (text : List Char) : Padded text text :=
  ⟨[], [], List.forall_mem_nil _, List.forall_mem_nil _, (List.append_nil text).symm⟩

theorem arrayText_compact {items : List (List Char)} (nonempty : items ≠ []) :
    ArrayText items (compactArray items) :=
  .items nonempty (List.forall₂_same.2 fun item _ => padded_self item)

theorem objectText_compact {members : List (String × List Char)} (nonempty : members ≠ []) :
    ObjectText rules members (compactObject members) := by
  refine .members nonempty (List.forall₂_map_right_iff.2 (List.forall₂_same.2 fun member _ => ?_))
  exact ⟨[], _, [], member.2, List.forall_mem_nil _, quotes_quoted member.1, List.forall_mem_nil _,
    padded_self member.2, rfl⟩

theorem valueText_string (depth : Nat) (text : String) :
    ValueText rules depth (.string text) (quoted text) := by
  cases depth with
  | zero | succ => exact .string (quotes_quoted text)

theorem valueText_array {depth : Nat} {values : List Json} {items : List (List Char)}
    (nonempty : items ≠ []) (written : List.Forall₂ (ValueText rules depth) values items) :
    ValueText rules (depth + 1) (.array values) (compactArray items) :=
  .array (arrayText_compact nonempty) written

theorem isWhole_digit {c : Char} (digit : Text.Decimal.isDigit c = true) : IsWhole [c] :=
  ⟨⟨List.cons_ne_nil _ _, List.forall_mem_singleton.2 digit⟩,
    fun first => congrArg ([·]) (Option.some.inj first)⟩

theorem writesNumber_exponent {c : Char} {digits : List Char}
    (digit : Text.Decimal.isDigit c = true) (exponent : IsDigits digits) :
    WritesNumber ⟨false, [c], none, some (false, digits)⟩ (c :: 'e' :: digits) :=
  .intro (isWhole_digit digit) .none (.bare (.inl rfl) exponent)

end Compact

end FileGraph.Json
