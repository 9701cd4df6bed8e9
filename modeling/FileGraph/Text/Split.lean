/-! # Cutting texts at separators

* `splitOn`: the pieces between the occurrences of one character.
* `joinWith`: the pieces put together again.
* `splitOnDouble`: the pieces between the doubled occurrences of a character.
* `after?`: what follows a word that a text begins with.
* `trimHere`: a path-like text without the pieces `./` it begins with.
-/

namespace FileGraph.Text

/-- The pieces of a text between the occurrences of `sep`; there is one more of them than there
are occurrences. -/
def splitOn (sep : Char) : List Char → List (List Char)
  | [] => [[]]
  | c :: rest =>
    if c = sep then [] :: splitOn sep rest
    else match splitOn sep rest with
      | [] => [[c]]
      | piece :: later => (c :: piece) :: later

/-- Pieces put together with `sep` between them. -/
def joinWith (sep : Char) : List (List Char) → List Char
  | [] => []
  | [piece] => piece
  | piece :: later => piece ++ sep :: joinWith sep later

/-- The pieces of a text between doubled occurrences of `sep`, found from left to right. -/
def splitOnDouble (sep : Char) : List Char → List (List Char)
  | [] => [[]]
  | [c] => [[c]]
  | c :: d :: rest =>
    if c = sep ∧ d = sep then [] :: splitOnDouble sep rest
    else match splitOnDouble sep (d :: rest) with
      | [] => [[c]]
      | piece :: later => (c :: piece) :: later

/-- What follows `word` in a text that begins with it. -/
def after? : (word text : List Char) → Option (List Char)
  | [], text => some text
  | w :: word, c :: text => if w = c then after? word text else none
  | _ :: _, [] => none

/-- A text without the pieces `./` at its beginning. -/
def trimHere : List Char → List Char
  | '.' :: '/' :: rest => trimHere rest
  | text => text

/-! ## Laws -/

theorem splitOn_ne_nil (sep : Char) (text : List Char) : splitOn sep text ≠ [] := by
  cases text with
  | nil => simp [splitOn]
  | cons c rest =>
    unfold splitOn
    split
    · simp
    · split <;> simp

theorem joinWith_splitOn (sep : Char) (text : List Char) :
    joinWith sep (splitOn sep text) = text := by
  induction text with
  | nil => rfl
  | cons c rest ih =>
    unfold splitOn
    have hne := splitOn_ne_nil sep rest
    split
    · rename_i h
      cases hs : splitOn sep rest with
      | nil => exact absurd hs hne
      | cons piece later => simp [joinWith, ← hs, ih, h]
    · cases hs : splitOn sep rest with
      | nil => exact absurd hs hne
      | cons piece later => cases later <;> simp_all [joinWith]

theorem not_mem_of_mem_splitOn {sep : Char} {text piece : List Char}
    (h : piece ∈ splitOn sep text) : sep ∉ piece := by
  induction text generalizing piece with
  | nil => simp_all [splitOn]
  | cons c rest ih =>
    unfold splitOn at h
    split at h
    · rcases List.mem_cons.1 h with h | h
      · simp [h]
      · exact ih h
    · rename_i hc
      cases hs : splitOn sep rest with
      | nil => exact absurd hs (splitOn_ne_nil sep rest)
      | cons first later =>
        simp only [hs, List.mem_cons] at h
        rcases h with h | h
        · have := ih (show first ∈ splitOn sep rest by simp [hs])
          subst h
          simp [this, Ne.symm hc]
        · exact ih (by simp [hs, h])

theorem length_splitOn (sep : Char) (text : List Char) :
    (splitOn sep text).length = text.count sep + 1 := by
  induction text with
  | nil => rfl
  | cons c rest ih =>
    unfold splitOn
    split
    · rename_i h
      simp [ih, h]
    · rename_i h
      cases hs : splitOn sep rest with
      | nil => exact absurd hs (splitOn_ne_nil sep rest)
      | cons first later =>
        rw [hs] at ih
        simp only [List.length_cons] at ih ⊢
        rw [List.count_cons_of_ne (by simpa using h)]
        exact ih

/-- A word is followed by `rest` exactly in the texts made of the two. -/
theorem after?_eq_some_iff {word text rest : List Char} :
    after? word text = some rest ↔ text = word ++ rest := by
  fun_induction after? word text with
  | case1 text => simp [eq_comm]
  | case2 word c text ih => simp [ih]
  | case3 w word c text h => simp [Ne.symm h]
  | case4 => simp

theorem trimHere_of_bare {text : List Char} (bare : ¬ ['.', '/'] <+: text) :
    trimHere text = text := by
  rw [trimHere]
  rintro rest rfl
  exact bare ⟨rest, rfl⟩

theorem bare_trimHere (text : List Char) : ¬ ['.', '/'] <+: trimHere text := by
  fun_induction trimHere text with
  | case1 rest ih => exact ih
  | case2 text other =>
    rintro ⟨rest, rfl⟩
    exact other rest rfl

end FileGraph.Text
