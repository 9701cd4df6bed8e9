import FileGraph.Proofs.Statement.Pieces
import FileGraph.Proofs.Statement.Position

/-! # Languages whose statements take a line each

A statement of Python, Java, C# and C begins at the beginning of a line, and nothing it reads or
looks at lies behind the line feed.

* `Line.Bound`: readers that do not look beyond a line.
* `Line.search_joined`: what a search finds in a text it finds line by line.
* `Extract.references_linewise`: the references of a text, line by line.
-/

namespace FileGraph

namespace Statement

open Text

/-! ## Pieces of statements in front of a line feed -/

section Feed

variable {inClass : Char → Bool} (feed : inClass '\n' = false) (line rest : List Char)

include feed

theorem dropWhile_feed : (line ++ '\n' :: rest).dropWhile inClass =
    line.dropWhile inClass ++ '\n' :: rest := by
  induction line with
  | nil => exact List.dropWhile_cons_of_neg (by simp [feed])
  | cons c line ih =>
    by_cases fits : inClass c = true
    · simpa [fits] using ih
    · simp [fits]

theorem takeWhile_feed : (line ++ '\n' :: rest).takeWhile inClass = line.takeWhile inClass := by
  induction line with
  | nil => exact List.takeWhile_cons_of_neg (by simp [feed])
  | cons c line ih =>
    by_cases fits : inClass c = true
    · simpa [fits] using ih
    · simp [fits]

theorem skipSome?_feed : skipSome? inClass (line ++ '\n' :: rest) =
    (skipSome? inClass line).map (· ++ '\n' :: rest) := by
  cases line with
  | nil => simp [skipSome?, feed]
  | cons c line =>
    rw [List.cons_append, skipSome?, skipSome?, dropWhile_feed feed]
    split <;> rfl

theorem skipOne?_feed : skipOne? inClass (line ++ '\n' :: rest) =
    (skipOne? inClass line).map (· ++ '\n' :: rest) := by
  cases line with
  | nil => simp [skipOne?, feed]
  | cons c line =>
    rw [List.cons_append, skipOne?, skipOne?]
    split <;> rfl

theorem takeSome?_feed : takeSome? inClass (line ++ '\n' :: rest) =
    (takeSome? inClass line).map fun (target, behind) => (target, behind ++ '\n' :: rest) := by
  rw [takeSome?, takeSome?, takeWhile_feed feed, dropWhile_feed feed]
  cases line.takeWhile inClass with
  | nil => rfl
  | cons c taken => rfl

end Feed

theorem after?_feed {word : List Char} (feedless : '\n' ∉ word) (line rest : List Char) :
    after? word (line ++ '\n' :: rest) = (after? word line).map (· ++ '\n' :: rest) := by
  induction word generalizing line with
  | nil => rfl
  | cons w word ih =>
    rw [List.mem_cons, not_or] at feedless
    cases line with
    | nil => simp [after?, Ne.symm feedless.1]
    | cons c line =>
      rw [List.cons_append, after?, after?, ih feedless.2]
      split <;> rfl

/-- What is read from a line, with `rest` behind its line feed. -/
def putBehind (rest : List Char) (read : List Char × List Char × List Char) :
    List Char × List Char × List Char :=
  (read.1, read.2.1 ++ '\n' :: rest, read.2.2 ++ '\n' :: rest)

theorem delimited?_feed {opening closing : Char → Bool} (opens : opening '\n' = false)
    (closes : closing '\n' = false) (line rest : List Char) :
    delimited? opening closing (line ++ '\n' :: rest) =
      (delimited? opening closing line).map (putBehind rest) := by
  have taken : ∀ line, takeSome? (fun c => !closing c && c != '\n') (line ++ '\n' :: rest) =
      (takeSome? (fun c => !closing c && c != '\n') line).map
        fun (target, behind) => (target, behind ++ '\n' :: rest) :=
    fun line => takeSome?_feed (by simp) line rest
  simp only [delimited?, Option.bind_eq_bind, Option.pure_def, skipOne?_feed opens,
    Option.bind_map, Option.map_bind, Function.comp_def, taken, skipOne?_feed closes]
  rfl

/-! ## Readers that do not look beyond a line -/

namespace Line

/-- What is read from a line does not depend on what lies behind its line feed. -/
def Bound (read? : List Char → Option (List Char × List Char × List Char)) : Prop :=
  ∀ line rest, read? (line ++ '\n' :: rest) = (read? line).map (putBehind rest)

theorem opening?_feed {word : List Char} (feedless : '\n' ∉ word) (line rest : List Char) :
    opening? word (line ++ '\n' :: rest) = (opening? word line).map (· ++ '\n' :: rest) := by
  simp only [opening?, Option.bind_eq_bind, Option.map_bind, Option.bind_map, Function.comp_def,
    dropWhile_feed (by decide : isGap '\n' = false), after?_feed feedless,
    skipSome?_feed (by decide : isGap '\n' = false)]

theorem skipReturn_feed (line rest : List Char) :
    skipReturn (line ++ '\n' :: rest) = skipReturn line ++ '\n' :: rest := by
  cases line with
  | nil => rfl
  | cons c line =>
    by_cases isReturn : c = '\r'
    · subst isReturn
      rfl
    · simp [skipReturn, isReturn]

theorem atLineEnd_feed (line rest : List Char) :
    atLineEnd (line ++ '\n' :: rest) = atLineEnd line := by
  cases line <;> rfl

theorem beginsWithWord_feed (line rest : List Char) :
    beginsWithWord (line ++ '\n' :: rest) = beginsWithWord line := by
  cases line with
  | nil => exact (by decide : isWordChar '\n' = false)
  | cons c line => rfl

theorem bound_readImport? : Bound readImport? := by
  intro line rest
  simp only [readImport?, Option.bind_eq_bind, Option.pure_def, Option.map_bind, Option.bind_map,
    Function.comp_def, opening?_feed (by decide : '\n' ∉ importWord),
    takeSome?_feed (by decide : isDotted '\n' = false),
    dropWhile_feed (by decide : isGap '\n' = false), skipReturn_feed, atLineEnd_feed]
  rfl

theorem bound_readFrom? : Bound readFrom? := by
  intro line rest
  simp only [readFrom?, Option.bind_eq_bind, Option.pure_def, Option.map_bind, Option.bind_map,
    Function.comp_def, opening?_feed (by decide : '\n' ∉ fromWord),
    takeSome?_feed (by decide : isDotted '\n' = false),
    skipSome?_feed (by decide : isGap '\n' = false),
    after?_feed (by decide : '\n' ∉ importWord), beginsWithWord_feed]
  rfl

theorem bound_terminated? : Bound terminated? := by
  intro line rest
  have closed : ∀ line, skipOne? (· == ';') (line ++ '\n' :: rest) =
      (skipOne? (· == ';') line).map (· ++ '\n' :: rest) := fun line => skipOne?_feed rfl line rest
  simp only [terminated?, Option.bind_eq_bind, Option.pure_def, Option.map_bind, Option.bind_map,
    Function.comp_def, takeSome?_feed (by decide : isDotted '\n' = false),
    dropWhile_feed (by decide : isGap '\n' = false), closed]
  rfl

theorem skipStatic?_feed (line rest : List Char) :
    skipStatic? (line ++ '\n' :: rest) = (skipStatic? line).map (· ++ '\n' :: rest) := by
  simp only [skipStatic?, Option.bind_eq_bind, Option.map_bind, Option.bind_map, Function.comp_def,
    after?_feed (by decide : '\n' ∉ staticWord), skipSome?_feed (by decide : isGap '\n' = false)]

theorem bound_readPackage? {word : List Char} (feedless : '\n' ∉ word) :
    Bound (readPackage? word) := by
  intro line rest
  simp only [readPackage?, Option.bind_eq_bind, Option.map_bind, Option.bind_map,
    Function.comp_def, opening?_feed feedless, skipStatic?_feed, bound_terminated? _ rest,
    Option.orElse_eq_orElse, Option.orElse_eq_or, Option.map_or]

theorem bound_readInclude? : Bound readInclude? := by
  intro line rest
  have hash : ∀ line, skipOne? (· == '#') (line ++ '\n' :: rest) =
      (skipOne? (· == '#') line).map (· ++ '\n' :: rest) := fun line => skipOne?_feed rfl line rest
  simp only [readInclude?, Option.bind_eq_bind, Option.map_bind, Option.bind_map,
    Function.comp_def, dropWhile_feed (by decide : isGap '\n' = false), hash,
    after?_feed (by decide : '\n' ∉ includeWord),
    delimited?_feed (by decide : isOpeningMark '\n' = false)
      (by decide : isClosingMark '\n' = false)]

end Line

/-! ## Searching line by line -/

/-- Recognisers of statements that begin with a line and lie on it. -/
structure Recogniser.Linewise (recognise : Recogniser) : Prop where
  reading : recognise.Reading
  starts : ∀ before text, atLineStart before = false → recognise before text = none
  alike : ∀ before text, atLineStart before = true → recognise before text = recognise none text
  bound : ∀ before line rest, recognise before (line ++ '\n' :: rest) = recognise before line

theorem within_behind {text target behind rest : List Char} (reads : Reads text target behind rest)
    (more : List Char) : Hit.within (text ++ more) target (behind ++ more) (rest ++ more) =
      Hit.within text target behind rest := by
  obtain ⟨⟨lead, rfl⟩, ⟨trail, rfl⟩, -⟩ := reads
  have short := within_eq lead target trail rest
  have long := within_eq lead target trail (rest ++ more)
  simp only [List.append_assoc] at short long ⊢
  rw [short, long]

theorem Line.linewise_atStart {read? : List Char → Option (List Char × List Char × List Char)}
    (sound : ∀ {text target behind rest}, read? text = some (target, behind, rest) →
      Reads text target behind rest) (bound : Bound read?) : Recogniser.Linewise (atStart read?) where
  reading := reading_atStart sound
  starts before text off := by simp [atStart, guard, off]
  alike before text start := by simp [atStart, guard, start, show atLineStart none = true from rfl]
  bound before line rest := by
    cases read : read? line with
    | none => simp [atStart, bound line rest, read]
    | some found =>
      obtain ⟨target, behind, after⟩ := found
      have same := within_behind (sound read) ('\n' :: rest)
      simp [atStart, bound line rest, read, putBehind, same]

namespace Recogniser

variable {recognise : Recogniser}

/-- What is found on the line that begins at a place. -/
def onLine (recognise : Recogniser) (p : Place) (line : List Char) : List (Place × List Char) :=
  (recognise none line).toList.map fun hit => (p.advance hit.lead, hit.target)

namespace Linewise

variable (linewise : recognise.Linewise) {p : Place} {line : List Char}

include linewise

theorem nil (before : Option Char) : recognise before [] = none := by
  rw [Option.eq_none_iff_forall_ne_some]
  intro hit found
  obtain ⟨target, behind, rest, reads, -⟩ := linewise.reading _ _ _ found
  have empty := List.suffix_nil.1 reads.fits
  exact reads.plain.filled (List.append_eq_nil_iff.1 empty).1

theorem feed (before : Option Char) (rest : List Char) : recognise before ('\n' :: rest) = none :=
  (linewise.bound before [] rest).trans (linewise.nil before)

theorem search_off (off : atLineStart p.before = false) (feedless : '\n' ∉ line) (rest : List Char) :
    search recognise 0 p (line ++ rest) = search recognise 0 (p.advance line) rest := by
  induction line generalizing p with
  | nil => rfl
  | cons c line ih =>
    rw [List.mem_cons, not_or] at feedless
    rw [List.cons_append, search, linewise.starts _ _ off]
    refine ih ?_ feedless.2
    simp [atLineStart, Place.step, Ne.symm feedless.1]

theorem search_line (start : atLineStart p.before = true) (feedless : '\n' ∉ line)
    {rest : List Char} (ends : rest = [] ∨ ∃ later, rest = '\n' :: later) :
    search recognise 0 p (line ++ rest) =
      recognise.onLine p line ++ search recognise 0 (p.advance line) rest := by
  -- Neither what is in front of the line nor what is behind it makes a difference.
  have same : recognise p.before (line ++ rest) = recognise none line := by
    rw [linewise.alike _ _ start]
    obtain rfl | ⟨later, rfl⟩ := ends
    · rw [List.append_nil]
    · exact linewise.bound none line later
  cases found : recognise none line with
  | none =>
    rw [onLine, found]
    cases line with
    | nil => rfl
    | cons c line =>
      rw [List.mem_cons, not_or] at feedless
      rw [List.cons_append] at same ⊢
      rw [search, same, found]
      refine linewise.search_off ?_ feedless.2 rest
      simp [atLineStart, Place.step, Ne.symm feedless.1]
  | some hit =>
    obtain ⟨left, shape⟩ := linewise.reading.exact _ _ _ found
    have target := (linewise.reading.plain _ _ _ found).filled
    have filled : hit.lead ++ hit.target ++ hit.trail ≠ [] := by simp [target]
    have size : hit.size = (hit.lead ++ hit.target ++ hit.trail).length := by
      simp [Hit.size, Nat.add_assoc]
    rw [onLine, found]
    generalize hit.lead ++ hit.target ++ hit.trail = whole at shape filled size
    obtain rfl := shape
    rw [List.mem_append, not_or] at feedless
    rw [List.append_assoc] at same ⊢
    rw [search_hit filled (same.trans found) size, Place.advance_append,
      linewise.search_off _ feedless.2]
    · rfl
    · -- The statement ends on the line, so that what is left of it lies behind a plain character.
      obtain ⟨front, c, rfl⟩ := (List.eq_nil_or_concat whole).resolve_left filled
      have apart : c ≠ '\n' := by
        rintro rfl
        exact feedless.1 (by simp)
      rw [List.concat_eq_append, Place.before_advance_concat]
      simp [atLineStart, apart]

theorem search_joined {lines : List (List Char)} (feedless : ∀ line ∈ lines, '\n' ∉ line)
    (start : atLineStart p.before = true) :
    search recognise 0 p (joinWith '\n' lines) =
      (placed (· ++ ['\n']) p lines).flatMap fun piece => recognise.onLine piece.1 piece.2 := by
  induction lines generalizing p with
  | nil => rfl
  | cons line later ih =>
    rw [List.forall_mem_cons] at feedless
    cases later with
    | nil =>
      have only := linewise.search_line start feedless.1 (.inl rfl)
      rw [List.append_nil] at only
      simpa [joinWith, placed, search] using only
    | cons second later =>
      have next := ih feedless.2 (congrArg atLineStart (Place.before_advance_concat p line '\n'))
      have joined : joinWith '\n' (line :: second :: later) =
          line ++ '\n' :: joinWith '\n' (second :: later) := rfl
      rw [joined, linewise.search_line start feedless.1 (.inr ⟨_, rfl⟩), search, linewise.feed,
        placed, List.flatMap_cons, ← next, Place.advance_append]
      rfl

theorem line_of_mem_onLine (feedless : '\n' ∉ line) {spot : Place × List Char}
    (member : spot ∈ recognise.onLine p line) : spot.1.line = p.line := by
  obtain ⟨hit, found, rfl⟩ := List.mem_map.1 member
  obtain ⟨left, rfl⟩ := linewise.reading.exact _ _ _ (Option.mem_toList.1 found)
  have inside : '\n' ∉ hit.lead := fun member => feedless (by simp [member])
  simp [Place.line_advance, List.count_eq_zero.2 inside]

theorem offset_of_mem_onLine {spot : Place × List Char} (member : spot ∈ recognise.onLine p line) :
    p.offset ≤ spot.1.offset ∧ spot.1.offset < p.offset + (line ++ ['\n']).length := by
  obtain ⟨hit, found, rfl⟩ := List.mem_map.1 member
  obtain ⟨left, rfl⟩ := linewise.reading.exact _ _ _ (Option.mem_toList.1 found)
  simp only [Place.offset_advance, List.length_append, List.length_singleton]
  omega

end Linewise

end Recogniser

/-! ## The languages -/

namespace Line

theorem linewise_pythonImport : Recogniser.Linewise pythonImport :=
  linewise_atStart reads_of_readImport? bound_readImport?

theorem linewise_pythonFrom : Recogniser.Linewise pythonFrom :=
  linewise_atStart reads_of_readFrom? bound_readFrom?

theorem linewise_packageUse {word : List Char} (feedless : '\n' ∉ word) :
    Recogniser.Linewise (packageUse word) :=
  linewise_atStart reads_of_readPackage? (bound_readPackage? feedless)

theorem linewise_includeFile : Recogniser.Linewise includeFile :=
  linewise_atStart reads_of_readInclude? bound_readInclude?

theorem head?_of_opening? {w : Char} {word text rest : List Char}
    (opened : opening? (w :: word) text = some rest) : (text.dropWhile isGap).head? = some w := by
  obtain ⟨behindWord, read, -⟩ := Option.bind_eq_some_iff.1 opened
  rw [after?_eq_some_iff.1 read]
  rfl

theorem exists_of_atStart {read? : List Char → Option (List Char × List Char × List Char)}
    {before : Option Char} {line : List Char} {hit : Hit}
    (found : atStart read? before line = some hit) : ∃ read, read? line = some read := by
  simp only [atStart, Option.bind_eq_bind, Option.bind_eq_some_iff] at found
  obtain ⟨-, -, read, done, -⟩ := found
  exact ⟨read, done⟩

/-- A line of Python is not read in both ways. -/
theorem pythonFrom_eq_none {before : Option Char} {line : List Char} {hit : Hit}
    (found : pythonImport before line = some hit) : pythonFrom before line = none := by
  rw [Option.eq_none_iff_forall_ne_some]
  intro other also
  obtain ⟨_, read⟩ := exists_of_atStart found
  obtain ⟨_, read'⟩ := exists_of_atStart also
  obtain ⟨_, opened, -⟩ := Option.bind_eq_some_iff.1 read
  obtain ⟨_, opened', -⟩ := Option.bind_eq_some_iff.1 read'
  have same := (head?_of_opening? opened).symm.trans (head?_of_opening? opened')
  exact absurd same (by decide)

end Line

end Statement

namespace Extract

open Statement

/-- The forms of statement of the languages whose statements take a line each. -/
def lineForms : Language → List (Recogniser × Kind)
  | .python => [(Line.pythonImport, .import), (Line.pythonFrom, .from)]
  | .java => [(Line.packageUse Line.importWord, .import)]
  | .cSharp => [(Line.packageUse Line.usingWord, .using)]
  | .c | .cpp => [(Line.includeFile, .include)]
  | _ => []

/-- The targets on a line. -/
def targetsOn (language : Language) (line : List Char) : List (List Char × Kind) :=
  (lineForms language).flatMap fun form =>
    (form.1 none line).toList.map fun hit => (hit.target, form.2)

theorem linewise_of_mem_lineForms {language : Language} :
    ∀ form ∈ lineForms language, form.1.Linewise := by
  cases language with
  | python => simp [lineForms, Line.linewise_pythonImport, Line.linewise_pythonFrom]
  | java | cSharp =>
    simp only [lineForms, List.forall_mem_singleton]
    exact Line.linewise_packageUse (by decide)
  | c | cpp => simp [lineForms, Line.linewise_includeFile]
  | _ => simp [lineForms]

theorem length_targetsOn_le (language : Language) (line : List Char) :
    (targetsOn language line).length ≤ 1 := by
  cases language with
  | python =>
    cases found : Line.pythonImport none line with
    | none => simp [targetsOn, lineForms, found]
    | some hit => simp [targetsOn, lineForms, found, Line.pythonFrom_eq_none found]
  | _ => simp [targetsOn, lineForms]

variable {language : Language}

/-- The targets on the lines of a text, each line with its own place. -/
def spotsOn (language : Language) (piece : Place × List Char) : List (Place × List Char × Kind) :=
  (lineForms language).flatMap fun form =>
    (form.1.onLine piece.1 piece.2).map fun spot => (spot.1, spot.2, form.2)

theorem length_spotsOn (piece : Place × List Char) :
    (spotsOn language piece).length = (targetsOn language piece.2).length := by
  simp [spotsOn, targetsOn, Recogniser.onLine, List.length_flatMap]

theorem ascending_spotsOn (piece : Place × List Char) :
    Ascending piece.1.offset (piece.1.offset + (piece.2 ++ ['\n']).length)
      (spotsOn language piece) where
  ordered := by
    have short : (spotsOn language piece).length ≤ 1 :=
      (length_spotsOn piece).trans_le (length_targetsOn_le language piece.2)
    match found : spotsOn language piece with
    | [] => exact .nil
    | [spot] => exact List.pairwise_singleton _ spot
    | first :: second :: later => simp [found] at short
  inside := by
    intro spot member
    obtain ⟨form, known, inside⟩ := List.mem_flatMap.1 member
    obtain ⟨spot, found, rfl⟩ := List.mem_map.1 inside
    exact (linewise_of_mem_lineForms form known).offset_of_mem_onLine found

/-- The references that the line of a given number writes. -/
def referencesOn (language : Language) (number : Nat) (line : List Char) : List Reference :=
  (targetsOn language line).map fun target => ⟨String.ofList target.1, target.2, number⟩

theorem map_spotsOn {piece : Place × List Char} (feedless : '\n' ∉ piece.2) :
    (spotsOn language piece).map toReference = referencesOn language piece.1.line piece.2 := by
  rw [spotsOn, referencesOn, targetsOn, List.map_flatMap, List.map_flatMap]
  refine List.flatMap_congr fun form known => ?_
  simp only [List.map_map, Recogniser.onLine]
  refine List.map_congr_left fun hit found => ?_
  have line : (piece.1.advance hit.lead).line = piece.1.line :=
    (linewise_of_mem_lineForms form known).line_of_mem_onLine feedless
      (List.mem_map.2 ⟨hit, found, rfl⟩)
  exact congrArg (Reference.mk (String.ofList hit.target) form.2) line

theorem flatMap_placed {β : Type} (f : Nat → List Char → List β) {lines : List (List Char)}
    (feedless : ∀ line ∈ lines, '\n' ∉ line) (p : Place) :
    ((placed (· ++ ['\n']) p lines).flatMap fun piece => f piece.1.line piece.2) =
      (lines.zipIdx p.line).flatMap fun (line, number) => f number line := by
  induction lines generalizing p with
  | nil => rfl
  | cons line later ih =>
    rw [List.forall_mem_cons] at feedless
    have next : (p.advance (line ++ ['\n'])).line = p.line + 1 := by
      simp [Place.line_advance, List.count_eq_zero.2 feedless.1]
    rw [placed, List.flatMap_cons, ih feedless.2, next]
    rfl

/-- The languages whose statements take a line each. -/
def lineLanguages : List Language :=
  [.python, .java, .cSharp, .c, .cpp]

theorem found_eq_map (known : language ∈ lineLanguages) (text : List Char) :
    found language text = (lineForms language).map fun form =>
      (search form.1 0 .start text, form.2) := by
  simp only [lineLanguages, List.mem_cons, List.not_mem_nil, or_false] at known
  obtain rfl | rfl | rfl | rfl | rfl := known <;> rfl

theorem found_eq_placed (known : language ∈ lineLanguages) (text : List Char) :
    found language text = (lineForms language).map fun form =>
      ((placed (· ++ ['\n']) .start (Text.splitOn '\n' text)).flatMap
        fun piece => form.1.onLine piece.1 piece.2, form.2) := by
  have feedless : ∀ line ∈ Text.splitOn '\n' text, '\n' ∉ line :=
    fun line => Text.not_mem_of_mem_splitOn
  rw [found_eq_map known]
  refine List.map_congr_left fun form member => ?_
  have joined := (linewise_of_mem_lineForms form member).search_joined feedless
    (rfl : Statement.atLineStart Place.start.before = true)
  rw [Text.joinWith_splitOn] at joined
  rw [joined]

theorem pairwise_spots_of_line (known : language ∈ lineLanguages) (text : List Char) :
    (spots (found language text)).Pairwise fun a b => a.1.offset ≠ b.1.offset := by
  rw [found_eq_placed known]
  have perm := spots_placed_perm (· ++ ['\n']) .start (Text.splitOn '\n' text) (lineForms language)
    (fun (recognise : Recogniser) piece => recognise.onLine piece.1 piece.2) (spotsOn language)
    fun piece _ => .refl _
  rw [perm.pairwise_iff fun apart => apart.symm]
  exact (pairwise_flatMap_placed _ _ _ _ fun piece _ => ascending_spotsOn piece).imp Nat.ne_of_lt

theorem references_eq_referencesOn (known : language ∈ lineLanguages) (content : String) :
    references language content =
      ((Text.splitOn '\n' content.toList).zipIdx 1).flatMap fun (line, number) =>
        referencesOn language number line := by
  have feedless : ∀ line ∈ Text.splitOn '\n' content.toList, '\n' ∉ line :=
    fun line => Text.not_mem_of_mem_splitOn
  rw [references, found_eq_placed known, merge_placed _ _ _ (lineForms language)
    (fun (recognise : Recogniser) piece => recognise.onLine piece.1 piece.2) (spotsOn language)
    (fun piece _ => .refl _) (fun piece _ => ascending_spotsOn piece), List.map_flatMap]
  refine Eq.trans ?_ (flatMap_placed (referencesOn language) feedless .start)
  exact List.flatMap_congr fun piece member =>
    map_spotsOn (feedless _ (mem_of_mem_placed _ member))

theorem map_line_referencesOn (number number' : Nat) (line : List Char) :
    (referencesOn language number line).map (fun reference => { reference with line := number' }) =
      referencesOn language number' line := by
  rw [referencesOn, List.map_map]
  rfl

theorem map_add_referencesOn (number more : Nat) (line : List Char) :
    (referencesOn language number line).map
        (fun reference => { reference with line := reference.line + more }) =
      referencesOn language (number + more) line := by
  rw [referencesOn, List.map_map]
  rfl

theorem references_eq_of_feedless (known : language ∈ lineLanguages) {line : List Char}
    (feedless : '\n' ∉ line) :
    references language (String.ofList line) = referencesOn language 1 line := by
  have single : Text.splitOn '\n' line = [line] := by
    rw [Text.splitOn_eq]
    exact List.splitOn_eq_singleton feedless
  simp [references_eq_referencesOn known, single]

theorem flatMap_zipIdx_add (lines : List (List Char)) (start more : Nat) :
    ((lines.zipIdx (start + more)).flatMap fun (line, number) => referencesOn language number line) =
      ((lines.zipIdx start).flatMap fun (line, number) => referencesOn language number line).map
        fun reference => { reference with line := reference.line + more } := by
  induction lines generalizing start with
  | nil => rfl
  | cons line later ih =>
    rw [List.zipIdx_cons, List.zipIdx_cons, List.flatMap_cons, List.flatMap_cons, List.map_append,
      Nat.add_right_comm, ih, map_add_referencesOn]

/-- The references of a text in these languages are found line by line. -/
theorem references_linewise (known : language ∈ lineLanguages) :
    (∀ content : String, references language content =
      ((Text.splitOn '\n' content.toList).zipIdx 1).flatMap fun (line, number) =>
        (references language (String.ofList line)).map fun reference =>
          { reference with line := number }) ∧
    (∀ line : String, '\n' ∉ line.toList → (references language line).length ≤ 1) ∧
    ∀ a b : String, references language (a ++ "\n" ++ b) =
      references language a ++ (references language b).map fun reference =>
        { reference with line := reference.line + (Text.splitOn '\n' a.toList).length } := by
  refine ⟨fun content => ?_, fun line feedless => ?_, fun a b => ?_⟩
  · rw [references_eq_referencesOn known]
    refine List.flatMap_congr fun (line, number) member => ?_
    have feedless : '\n' ∉ line :=
      Text.not_mem_of_mem_splitOn (List.fst_mem_of_mem_zipIdx member)
    dsimp only
    rw [references_eq_of_feedless known feedless, map_line_referencesOn]
  · have own := references_eq_of_feedless known feedless
    rw [String.ofList_toList] at own
    rw [own, referencesOn, List.length_map]
    exact length_targetsOn_le language line.toList
  · have text : (a ++ "\n" ++ b).toList = a.toList ++ '\n' :: b.toList := by simp
    rw [references_eq_referencesOn known, text, Text.splitOn_append_cons, List.zipIdx_append,
      List.flatMap_append, flatMap_zipIdx_add, references_eq_referencesOn known a,
      references_eq_referencesOn known b]

/-- A carriage return, a blank line and a letter beyond ASCII. -/
theorem references_linewise_python :
    Language.python ∈ lineLanguages ∧
      references .python ("import a\r\n" ++ "\n" ++ "from .é import b") =
        [⟨"a", .import, 1⟩, ⟨".é", .from, 3⟩] := by
  have known : Language.python ∈ lineLanguages := by decide
  have first : references .python "import a\r\n" = [⟨"a", .import, 1⟩] := by
    rw [references_eq_referencesOn known]
    decide
  have second : references .python "from .é import b" = [⟨".é", .from, 1⟩] := by
    rw [references_eq_referencesOn known]
    decide
  refine ⟨known, ?_⟩
  rw [(references_linewise known).2.2, first, second]
  rfl

end Extract

end FileGraph
