import FileGraph.Proofs.Json.Recognises
import Mathlib.Data.List.DropRight

/-! # Values in any spelling are passed over

A value that is not asked for may be nested as deep as it likes, and its numbers may be of any size.
What is spent on it is no more than two steps for each of its characters.

* `Passable`: a value is passed over.
* `skipItems_joinWith`, `skipEntries_joinWith`: what stands between brackets.
* `passable_value`, `AnyValue.skipAny_append`: all values are passed over.
-/

namespace FileGraph.Json

/-- The value in `text` is passed over wherever in a document it is written; two steps for each
character are enough. -/
structure Passable (text : List Char) : Prop where
  visible : Visible text
  passed : ∀ fuel blank rest, 2 * text.length ≤ fuel → Blank blank → Stops rest →
    skipValue fuel (blank ++ (text ++ rest)) = .ok rest

theorem skipItems_skipBlank (fuel : Nat) (text : List Char) :
    skipItems fuel (skipBlank text) = skipItems fuel text := by
  have value : ∀ fuel, skipValue fuel (skipBlank text) = skipValue fuel text := by
    intro fuel
    cases fuel with
    | zero => simp only [skipValue]
    | succ fuel => simp only [skipValue, skipBlank, List.dropWhile_idempotent]
  cases fuel with
  | zero => simp only [skipItems]
  | succ fuel => simp only [skipItems, value]

theorem skipEntries_skipBlank (fuel : Nat) (text : List Char) :
    skipEntries fuel (skipBlank text) = skipEntries fuel text := by
  cases fuel with
  | zero => simp only [skipEntries]
  | succ fuel => simp only [skipEntries, skipBlank, List.dropWhile_idempotent]

theorem skipBlank_items {items pieces : List (List Char)}
    (padded : List.Forall₂ Padded items pieces) (nonempty : items ≠ [])
    (passable : ∀ item ∈ items, Passable item) (rest : List Char) :
    ∃ c more, skipBlank (Text.joinWith ',' pieces ++ rest) = c :: more ∧ c ≠ ']' := by
  cases padded with
  | nil => exact absurd rfl nonempty
  | @cons _ _ items pieces padding padded =>
    obtain ⟨before, behind, blanks, -, rfl⟩ := padding
    have visible := (passable _ List.mem_cons_self).visible
    obtain ⟨c, more, rfl, -, apart⟩ := id visible
    refine ⟨c, more ++ (behind ++ (pieces.flatMap (',' :: ·) ++ rest)), ?_, apart⟩
    rw [Text.joinWith_cons, List.append_assoc, List.append_assoc, List.append_assoc,
      skipBlank_visible blanks visible, List.cons_append]

theorem skipBlank_members {rules : Rules} {members : List (String × List Char)}
    {pieces : List (List Char)} (written : List.Forall₂ (MemberText rules) members pieces)
    (nonempty : members ≠ []) (rest : List Char) :
    ∃ more, skipBlank (Text.joinWith ',' pieces ++ rest) = '"' :: more := by
  cases written with
  | nil => exact absurd rfl nonempty
  | @cons _ _ members pieces text written =>
    obtain ⟨before, key, between, value, blanks, ⟨inner, -, rfl⟩, -, -, rfl⟩ := text
    rw [Text.joinWith_cons, List.append_assoc, List.append_assoc, List.append_assoc,
      List.cons_append, skipBlank_append blanks (by decide)]
    exact ⟨_, rfl⟩

theorem skipItems_joinWith {items pieces : List (List Char)}
    (padded : List.Forall₂ Padded items pieces) (nonempty : items ≠ [])
    (passable : ∀ item ∈ items, Passable item) (fuel : Nat)
    (enough : 2 * (Text.joinWith ',' pieces).length < fuel) (rest : List Char) :
    skipItems fuel (Text.joinWith ',' pieces ++ ']' :: rest) = .ok rest := by
  -- Each piece pays for the value in it, and with its comma for the step to the next one.
  induction padded generalizing fuel with
  | nil => exact absurd rfl nonempty
  | @cons item piece items pieces padding padded ih =>
    obtain ⟨before, behind, blanks₁, blanks₂, rfl⟩ := padding
    obtain ⟨here, later⟩ := List.forall_mem_cons.1 passable
    rw [Text.joinWith_cons] at enough ⊢
    simp only [List.length_append] at enough
    cases fuel with
    | zero => cases enough
    | succ fuel =>
      have passed : skipValue fuel (before ++ (item ++ (behind ++
          (pieces.flatMap (',' :: ·) ++ ']' :: rest)))) =
          .ok (behind ++ (pieces.flatMap (',' :: ·) ++ ']' :: rest)) :=
        here.passed fuel before _ (by omega) blanks₁
          (.append blanks₂ (stops_flatMap _ rest (.inl rfl)))
      simp only [List.append_assoc, skipItems, passed, bind, Except.bind]
      cases padded with
      | nil =>
        rw [List.flatMap_nil, List.nil_append, skipBlank_append blanks₂ (by decide)]
        rfl
      | @cons next piece' items pieces padding' padded =>
        have further := ih (List.cons_ne_nil next items) later fuel
        rw [Text.joinWith_cons] at further
        simp only [List.flatMap_cons, List.length_append, List.length_cons, List.append_assoc,
          List.cons_append] at enough further ⊢
        rw [skipBlank_append blanks₂ (by decide)]
        exact further (by omega)

theorem skipEntries_joinWith {rules : Rules} {members : List (String × List Char)}
    {pieces : List (List Char)} (written : List.Forall₂ (MemberText rules) members pieces)
    (nonempty : members ≠ []) (passable : ∀ member ∈ members, Passable member.2) (fuel : Nat)
    (enough : 2 * (Text.joinWith ',' pieces).length < fuel) (rest : List Char) :
    skipEntries fuel (Text.joinWith ',' pieces ++ '\x7d' :: rest) = .ok rest := by
  induction written generalizing fuel with
  | nil => exact absurd rfl nonempty
  | @cons member piece members pieces text written ih =>
    obtain ⟨before, key, between, _, blanks₁, quotes, blanks₂, ⟨blank, behind, blanks₃, blanks₄,
      rfl⟩, rfl⟩ := text
    obtain ⟨inner, spells, rfl⟩ := quotes
    obtain ⟨here, later⟩ := List.forall_mem_cons.1 passable
    rw [Text.joinWith_cons] at enough ⊢
    simp only [List.length_append, List.length_cons] at enough
    cases fuel with
    | zero => cases enough
    | succ fuel =>
      have passed : skipValue fuel (blank ++ (member.2 ++ (behind ++
          (pieces.flatMap (',' :: ·) ++ '\x7d' :: rest)))) =
          .ok (behind ++ (pieces.flatMap (',' :: ·) ++ '\x7d' :: rest)) :=
        here.passed fuel blank _ (by omega) blanks₃
          (.append blanks₄ (stops_flatMap _ rest (.inr rfl)))
      simp only [List.append_assoc, List.cons_append, List.nil_append, skipEntries,
        skipBlank_append blanks₁ (show isBlank '"' = false by decide),
        skipString_of_spells spells, colon_append blanks₂, passed, bind, Except.bind]
      -- Behind the value comes a comma and another entry, or the closing bracket.
      cases written with
      | nil =>
        rw [List.flatMap_nil, List.nil_append, skipBlank_append blanks₄ (by decide)]
        rfl
      | @cons next piece' members pieces text' written =>
        have further := ih (List.cons_ne_nil next members) later fuel
        rw [Text.joinWith_cons] at further
        simp only [List.flatMap_cons, List.length_append, List.length_cons, List.append_assoc,
          List.cons_append] at enough further ⊢
        rw [skipBlank_append blanks₄ (by decide)]
        exact further (by omega)

theorem forall_mem_of_forall₂ {α β : Type} {R : α → β → Prop} {p : β → Prop} {as : List α}
    {bs : List β} (related : List.Forall₂ R as bs) (imp : ∀ a b, R a b → p b) : ∀ b ∈ bs, p b := by
  induction related with
  | nil => exact List.forall_mem_nil p
  | cons here _ ih => exact List.forall_mem_cons.2 ⟨imp _ _ here, ih⟩

/-- What is written at one level is passed over, if what is written inside is. -/
theorem passable_level {rules : Rules} {inner : Option (Json → List Char → Prop)}
    (inside : ∀ writes ∈ inner, ∀ value text, writes value text → Passable text) {value : Json}
    {text : List Char} (level : LevelText rules inner value text) : Passable text := by
  refine ⟨level.visible, fun fuel blank rest enough blanks stops => ?_⟩
  obtain ⟨fuel, rfl⟩ : ∃ fewer, fuel = fewer + 1 := by
    obtain ⟨c, more, rfl, -⟩ := level.visible
    rw [List.length_cons] at enough
    exact ⟨fuel - 1, by omega⟩
  rw [skipValue, skipBlank_visible blanks level.visible]
  cases level with
  | null | true | false => rfl
  | number writes =>
    have number := writes.skipNumber_append stops
    obtain ⟨c, more, rfl, first⟩ := writes.exists_head
    have apart : c ≠ '"' ∧ c ≠ '[' ∧ c ≠ '\x7b' ∧ c ≠ 'n' ∧ c ≠ 't' ∧ c ≠ 'f' := by
      refine ⟨?_, ?_, ?_, ?_, ?_, ?_⟩
      all_goals
        rintro rfl
        exact absurd first (by decide)
    rw [List.cons_append] at number ⊢
    simp only [apart, number, ↓reduceIte]
  | string quotes =>
    obtain ⟨inner, spells, rfl⟩ := quotes
    simp [skipString_of_spells spells]
  | @array _ values items _ array written =>
    cases array with
    | empty blanks' =>
      simp [skipBlank_append blanks' (show isBlank ']' = false by decide)]
    | items nonempty padded =>
      have passable : ∀ item ∈ items, Passable item :=
        forall_mem_of_forall₂ written fun value item writes => inside _ rfl value item writes
      simp only [List.length_cons, List.length_append] at enough
      have items := skipItems_joinWith padded nonempty passable fuel (by omega) rest
      -- The array is looked into behind its first white space.
      rw [← skipItems_skipBlank] at items
      obtain ⟨c, more, first, apart⟩ := skipBlank_items padded nonempty passable (']' :: rest)
      rw [first] at items
      simp only [List.cons_append, List.append_assoc, List.nil_append, first]
      simpa [apart] using items
  | @object _ entries members _ object written =>
    cases object with
    | empty blanks' =>
      simp [skipBlank_append blanks' (show isBlank '\x7d' = false by decide)]
    | members nonempty texts =>
      have passable : ∀ member ∈ members, Passable member.2 :=
        forall_mem_of_forall₂ written fun entry member writes =>
          inside _ rfl entry.2 member.2 writes.2
      simp only [List.length_cons, List.length_append] at enough
      have entries := skipEntries_joinWith texts nonempty passable fuel (by omega) rest
      rw [← skipEntries_skipBlank] at entries
      obtain ⟨more, first⟩ := skipBlank_members texts nonempty ('\x7d' :: rest)
      rw [first] at entries
      simp only [List.cons_append, List.append_assoc, List.nil_append, first]
      simpa using entries

theorem passable_value {rules : Rules} {depth : Nat} {value : Json} {text : List Char}
    (written : ValueText rules depth value text) : Passable text := by
  induction depth generalizing value text with
  | zero =>
    exact passable_level (fun writes given => absurd given (Option.not_mem_none writes)) written
  | succ depth ih =>
    refine passable_level (fun writes same value text => ?_) written
    obtain rfl := Option.mem_some_iff.1 same
    exact ih

theorem AnyValue.skipAny_append {text blank rest : List Char} (any : AnyValue text)
    (blanks : Blank blank) (stops : Stops rest) : skipAny (blank ++ (text ++ rest)) = .ok rest := by
  obtain ⟨depth, value, written⟩ := any
  refine (passable_value written).passed _ blank rest ?_ blanks stops
  simp only [List.length_append]
  omega

end FileGraph.Json
