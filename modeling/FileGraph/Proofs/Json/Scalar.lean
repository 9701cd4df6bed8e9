import FileGraph.Json.Reader
import Mathlib.Data.List.Basic

/-! # Written texts and numbers

* `exists_letter`, `escaped_of_not_mem`: how a character is written inside a JSON string.
* `stringBody_escape`: an escape in a string is read as what it stands for.
* `Ended`: what can stand behind a number.
* `digits_eq_cons`, `NumberText.isTooLarge_digits`: the digits of a number, and those below the limit
  of the significand.
-/

namespace FileGraph.Json

open Text.Decimal (digits value digitValue isDigit)

/-! ## Texts -/

theorem hexValue?_hexDigit : ∀ d < 16, hexValue? (hexDigit d) = some d := by
  decide

theorem escape_letter {letter c : Char} (known : letterEscape? letter = some c)
    (rest : List Char) : escape (letter :: rest) = .ok (c, rest) := by
  have apart : letter ≠ 'u' := by
    rintro rfl
    simp [letterEscape?] at known
  unfold escape
  split
  next equal => cases equal
  next equal => exact absurd (List.cons.inj equal).1 apart
  next equal =>
    obtain ⟨rfl, rfl⟩ := List.cons.inj equal
    rw [known]

/-- Characters that are escaped by a letter. -/
def lettered : List Char :=
  ['"', '\\', '\n', '\r', '\t', '\x08', '\x0c']

theorem exists_letter : ∀ c ∈ lettered,
    ∃ letter ∈ ['"', '\\', 'n', 'r', 't', 'b', 'f'],
      escaped c = ['\\', letter] ∧ letterEscape? letter = some c := by
  simp only [lettered, List.forall_mem_cons]
  refine ⟨⟨'"', ?_⟩, ⟨'\\', ?_⟩, ⟨'n', ?_⟩, ⟨'r', ?_⟩, ⟨'t', ?_⟩, ⟨'b', ?_⟩, ⟨'f', ?_⟩, nofun⟩
  all_goals exact ⟨by decide, by decide, by decide⟩

theorem escaped_of_not_mem {c : Char} (plain : c ∉ lettered) :
    escaped c = if c.toNat < 32 then
      ['\\', 'u', '0', '0', hexDigit (c.toNat / 16), hexDigit (c.toNat % 16)] else [c] := by
  simp only [lettered, List.mem_cons, List.not_mem_nil, or_false, not_or] at plain
  simp [escaped, plain]

theorem stringBody_escape {text later : List Char} {c : Char}
    (escaped : escape text = .ok (c, later)) :
    stringBody ('\\' :: text) = (stringBody later).map fun read => (c :: read.1, read.2) := by
  rw [stringBody, if_neg (by decide), if_pos rfl]
  split
  next problem failed => simp [escaped] at failed
  next c' later' found =>
    obtain ⟨rfl, rfl⟩ := Prod.mk.inj (Except.ok.inj (escaped.symm.trans found))
    rfl

theorem quoted_append (text : String) (rest : List Char) :
    quoted text ++ rest = '"' :: (text.toList.flatMap escaped ++ '"' :: rest) := by
  simp [quoted]

/-! ## Numbers -/

/-- What can stand behind a value: nothing, or a character that no value goes on with. -/
def Ended (rest : List Char) : Prop :=
  ∀ c ∈ rest.head?, c = ',' ∨ c = '\n'

theorem takeWhile_digits {text rest : List Char} (all : ∀ c ∈ text, isDigit c = true)
    (ended : ∀ c ∈ rest.head?, isDigit c = false) :
    (text ++ rest).takeWhile isDigit = text ∧ (text ++ rest).dropWhile isDigit = rest := by
  rw [List.takeWhile_append_of_pos all, List.dropWhile_append_of_pos all]
  cases rest with
  | nil => simp
  | cons c rest => simp [ended c rfl]

/-- No digits stand in front of those of a number but a single zero. -/
theorem digits_eq_cons (n : Nat) :
    ∃ c rest, digits n = c :: rest ∧ isDigit c = true ∧ (c = '0' → rest = []) := by
  fun_induction digits n with
  | case1 n small =>
      exact ⟨_, [], rfl, Text.Decimal.isDigit_digitChar small, fun _ => rfl⟩
  | case2 n large ih =>
      obtain ⟨c, rest, shape, isDigit, zero⟩ := ih
      refine ⟨c, rest ++ [_], by rw [shape, List.cons_append], isDigit, fun same => ?_⟩
      -- A single zero in front would make the number one below ten.
      have value := Text.Decimal.value_digits (n / 10)
      rw [shape, zero same, same] at value
      have : n / 10 = 0 := value.symm
      omega

/-! ## The size of a number -/

namespace NumberText

theorem gather_eq {text : List Char} {s : Nat}
    (fits : text.foldl (fun n c => n * 10 + digitValue c) s < significandLimit) :
    gather s text = (text.foldl (fun n c => n * 10 + digitValue c) s, []) := by
  induction text generalizing s with
  | nil => rfl
  | cons c text ih =>
      -- Digits that are taken in later only make the significand larger.
      have grows : ∀ (later : List Char) (t : Nat),
          t ≤ later.foldl (fun n c => n * 10 + digitValue c) t := by
        intro later
        induction later with
        | nil => exact Nat.le_refl
        | cons d later ih =>
            intro t
            have step := ih (t * 10 + digitValue d)
            rw [List.foldl_cons]
            omega
      rw [List.foldl_cons] at fits ⊢
      have next := Nat.lt_of_le_of_lt (grows text (s * 10 + digitValue c)) fits
      rw [gather]
      simp only [next, ↓reduceIte]
      exact ih fits

theorem round53_le (n : Nat) (positive : n ≠ 0) : round53 n ≤ 2 * n := by
  have unit_le : 1 <<< (n.log2 - 52) ≤ n := by
    rw [Nat.shiftLeft_eq, Nat.one_mul]
    exact Nat.le_trans (Nat.pow_le_pow_right (by decide) (Nat.sub_le _ _))
      (Nat.log2_self_le positive)
  have cut : n / 1 <<< (n.log2 - 52) * 1 <<< (n.log2 - 52) ≤ n := Nat.div_mul_le_self ..
  unfold round53
  dsimp only
  split
  · rw [Nat.add_mul]
    omega
  · omega

theorem isTooLarge_digits {n : Nat} (fits : n < significandLimit) :
    isTooLarge ⟨false, digits n, none, none⟩ = false := by
  have gathered : gather 0 (digits n) = (n, []) := by
    have value := Text.Decimal.value_digits n
    rw [Text.Decimal.value] at value
    rw [gather_eq (value.symm ▸ fits), value]
  have one : round53 1 = 1 := by decide
  have limit : 2 * significandLimit ≤ infinityBound := by decide
  by_cases zero : n = 0
  · subst zero
    simp [isTooLarge, scaled, gathered, gather]
  · have bound := round53_le n zero
    have small : round53 n < infinityBound := by omega
    simp [isTooLarge, scaled, gathered, gather, one, small]

theorem natural?_digits (n : Nat) : natural? ⟨false, digits n, none, none⟩ = some n :=
  congrArg some (Text.Decimal.value_digits n)

end NumberText

end FileGraph.Json
