import FileGraph.Proofs.Statement.Search
import Mathlib.Data.Bool.AllAny
import Mathlib.Data.List.TakeWhile
import Mathlib.Data.Option.Basic

/-! # What recognisers read

Every recogniser reads its text from the front and hands on what is left of it, so that lead, target
and trail of a hit are the beginning of the text.

* `Reads`: what is read from a text, the target being neither empty nor broken over lines.
* `Recogniser.Exact`: hits that are the beginning of the text.
* `Recogniser.Reading`: hits that are what is read from the text.
* `Line.reading_packageUse`, `Go.reading_single`, `Rust.reading_useDeclaration`, …: the recognisers.
-/

namespace FileGraph.Statement

open Text

variable {inClass : Char → Bool} {text target behind rest : List Char} {hit : Hit}

/-! ## What the pieces of statements leave behind -/

theorem exists_of_skipOne? (skipped : skipOne? inClass text = some rest) :
    ∃ c, inClass c = true ∧ text = c :: rest := by
  cases text with
  | nil => cases skipped
  | cons c text =>
    rw [skipOne?] at skipped
    split at skipped
    next fits => exact ⟨c, fits, by rw [Option.some.inj skipped]⟩
    next => cases skipped

theorem exists_of_skipSome? (skipped : skipSome? inClass text = some rest) :
    ∃ c later, inClass c = true ∧ text = c :: later := by
  cases text with
  | nil => cases skipped
  | cons c text =>
    rw [skipSome?] at skipped
    split at skipped
    next fits => exact ⟨c, text, fits, rfl⟩
    next => cases skipped

theorem skipOne?_suffix (skipped : skipOne? inClass text = some rest) : rest <:+ text := by
  obtain ⟨c, -, rfl⟩ := exists_of_skipOne? skipped
  exact List.suffix_cons c rest

theorem skipSome?_suffix (skipped : skipSome? inClass text = some rest) : rest <:+ text := by
  cases text with
  | nil => cases skipped
  | cons c text =>
    rw [skipSome?] at skipped
    split at skipped
    next =>
      obtain rfl := Option.some.inj skipped
      exact (List.dropWhile_suffix inClass).trans (List.suffix_cons c text)
    next => cases skipped

theorem after?_suffix {word : List Char} (read : after? word text = some rest) : rest <:+ text :=
  ⟨word, (after?_eq_some_iff.1 read).symm⟩

theorem takeSome?_eq_some (took : takeSome? inClass text = some (target, rest)) :
    target ≠ [] ∧ (∀ c ∈ target, inClass c = true) ∧ target ++ rest = text := by
  unfold takeSome? at took
  split at took
  next => cases took
  next c front shape =>
    rw [Option.some.injEq, Prod.mk.injEq] at took
    obtain ⟨rfl, rfl⟩ := took
    rw [← shape]
    exact ⟨by simp [shape], fun d member => List.mem_takeWhile_imp member,
      List.takeWhile_append_dropWhile⟩

theorem delimited?_eq_some {opening closing : Char → Bool}
    (read : delimited? opening closing text = some (target, behind, rest)) :
    ∃ first last, opening first = true ∧ closing last = true ∧ behind = last :: rest ∧
      text = first :: (target ++ last :: rest) ∧ target ≠ [] ∧
      ∀ c ∈ target, closing c = false ∧ c ≠ '\n' := by
  simp only [delimited?, Option.bind_eq_bind, Option.bind_eq_some_iff, Option.pure_def,
    Option.some.injEq, Prod.mk.injEq] at read
  obtain ⟨inside, opened, ⟨taken, left⟩, took, after, closed, rfl, rfl, rfl⟩ := read
  obtain ⟨first, opens, rfl⟩ := exists_of_skipOne? opened
  obtain ⟨last, closes, rfl⟩ := exists_of_skipOne? closed
  obtain ⟨filled, plain, rfl⟩ := takeSome?_eq_some took
  refine ⟨first, last, opens, closes, rfl, rfl, filled, ?_⟩
  intro c member
  simpa using plain c member

theorem not_mem_of_class (all : ∀ c ∈ target, inClass c = true) {c : Char}
    (foreign : inClass c = false) : c ∉ target := by
  intro member
  rw [all c member] at foreign
  cases foreign

/-! ## Hits are beginnings of the text -/

/-- A target with at least one character, all on one line. -/
structure Plain (target : List Char) : Prop where
  filled : target ≠ []
  oneLine : '\n' ∉ target

/-- What is read from a text: a target in it, what follows the target, and what follows the
statement. -/
structure Reads (text target behind rest : List Char) : Prop where
  fits : target ++ behind <:+ text
  part : rest <:+ behind
  plain : Plain target

theorem within_append (fits : target ++ behind <:+ text) (part : rest <:+ behind) :
    (Hit.within text target behind rest).lead ++ target ++
      (Hit.within text target behind rest).trail ++ rest = text := by
  obtain ⟨lead, rfl⟩ := fits
  obtain ⟨trail, rfl⟩ := part
  have cut := within_eq lead target trail rest
  rw [List.append_assoc, List.append_assoc] at cut
  simp [cut]

theorem within_prefix (fits : target ++ behind <:+ text) (part : rest <:+ behind) :
    (Hit.within text target behind rest).lead ++ (Hit.within text target behind rest).target ++
      (Hit.within text target behind rest).trail <+: text :=
  ⟨rest, within_append fits part⟩

/-- Lead, target and trail of a hit are the beginning of the text. -/
def Recogniser.Exact (recognise : Recogniser) : Prop :=
  ∀ before text hit, recognise before text = some hit → hit.lead ++ hit.target ++ hit.trail <+: text

/-- Every hit is what is read from the text. -/
def Recogniser.Reading (recognise : Recogniser) : Prop :=
  ∀ before text hit, recognise before text = some hit →
    ∃ target behind rest, Reads text target behind rest ∧ hit = .within text target behind rest

theorem Recogniser.Reading.plain {recognise : Recogniser} (reading : recognise.Reading)
    (before : Option Char) (text : List Char) (hit : Hit) (found : recognise before text = some hit) :
    Plain hit.target := by
  obtain ⟨target, behind, rest, reads, rfl⟩ := reading before text hit found
  exact reads.plain

theorem Recogniser.Reading.exact {recognise : Recogniser} (reading : recognise.Reading) :
    recognise.Exact := by
  intro before text hit found
  obtain ⟨target, behind, rest, reads, rfl⟩ := reading before text hit found
  exact within_prefix reads.fits reads.part

theorem Reads.of_suffix {later : List Char} (reads : Reads text target behind rest)
    (suffix : text <:+ later) : Reads later target behind rest :=
  { reads with fits := reads.fits.trans suffix }

theorem reads_of_delimited? {opening closing : Char → Bool}
    (read : delimited? opening closing text = some (target, behind, rest)) :
    Reads text target behind rest := by
  obtain ⟨first, last, -, -, rfl, rfl, filled, plain⟩ := delimited?_eq_some read
  exact {
    fits := List.suffix_cons _ _
    part := List.suffix_cons _ _
    plain := ⟨filled, fun member => (plain _ member).2 rfl⟩ }

theorem reads_of_takeSome? (feed : inClass '\n' = false)
    (took : takeSome? inClass text = some (target, behind)) (part : rest <:+ behind) :
    Reads text target behind rest := by
  obtain ⟨filled, all, rfl⟩ := takeSome?_eq_some took
  exact ⟨List.suffix_rfl, part, filled, not_mem_of_class all feed⟩

/-! ## Statements that take a line -/

namespace Line

theorem opening?_suffix {word : List Char} (opened : opening? word text = some rest) :
    rest <:+ text := by
  obtain ⟨behindWord, read, skipped⟩ := Option.bind_eq_some_iff.1 opened
  exact (skipSome?_suffix skipped).trans ((after?_suffix read).trans (List.dropWhile_suffix _))

theorem skipReturn_suffix (text : List Char) : skipReturn text <:+ text := by
  unfold skipReturn
  split
  · exact List.suffix_cons _ _
  · exact List.suffix_rfl

theorem reads_of_readImport? (read : readImport? text = some (target, behind, rest)) :
    Reads text target behind rest := by
  simp only [readImport?, Option.bind_eq_bind, Option.bind_eq_some_iff, Option.pure_def,
    Option.some.injEq, Prod.mk.injEq] at read
  obtain ⟨named, opened, ⟨_, _⟩, took, -, -, rfl, rfl, rfl⟩ := read
  refine (reads_of_takeSome? rfl took ?_).of_suffix (opening?_suffix opened)
  exact (skipReturn_suffix _).trans (List.dropWhile_suffix _)

theorem reads_of_readFrom? (read : readFrom? text = some (target, behind, rest)) :
    Reads text target behind rest := by
  simp only [readFrom?, Option.bind_eq_bind, Option.bind_eq_some_iff, Option.pure_def,
    Option.some.injEq, Prod.mk.injEq] at read
  obtain ⟨named, opened, ⟨_, _⟩, took, gap, skipped, _, word, -, -, rfl, rfl, rfl⟩ := read
  refine (reads_of_takeSome? rfl took ?_).of_suffix (opening?_suffix opened)
  exact (after?_suffix word).trans (skipSome?_suffix skipped)

theorem reads_of_terminated? (read : terminated? text = some (target, behind, rest)) :
    Reads text target behind rest := by
  simp only [terminated?, Option.bind_eq_bind, Option.bind_eq_some_iff, Option.pure_def,
    Option.some.injEq, Prod.mk.injEq] at read
  obtain ⟨⟨_, _⟩, took, _, closed, rfl, rfl, rfl⟩ := read
  exact reads_of_takeSome? rfl took ((skipOne?_suffix closed).trans (List.dropWhile_suffix _))

theorem skipStatic?_suffix (skipped : skipStatic? text = some rest) : rest <:+ text := by
  obtain ⟨behindWord, word, gap⟩ := Option.bind_eq_some_iff.1 skipped
  exact (skipSome?_suffix gap).trans (after?_suffix word)

theorem reads_of_readPackage? {word : List Char}
    (read : readPackage? word text = some (target, behind, rest)) :
    Reads text target behind rest := by
  obtain ⟨named, opened, chosen⟩ := Option.bind_eq_some_iff.1 read
  refine Reads.of_suffix ?_ (opening?_suffix opened)
  cases isStatic : skipStatic? named >>= terminated? with
  | none =>
    rw [isStatic] at chosen
    exact reads_of_terminated? chosen
  | some found =>
    rw [isStatic] at chosen
    obtain rfl := Option.some.inj chosen
    obtain ⟨later, skipped, read⟩ := Option.bind_eq_some_iff.1 isStatic
    exact (reads_of_terminated? read).of_suffix (skipStatic?_suffix skipped)

theorem reads_of_readInclude? (read : readInclude? text = some (target, behind, rest)) :
    Reads text target behind rest := by
  simp only [readInclude?, Option.bind_eq_bind, Option.bind_eq_some_iff] at read
  obtain ⟨behindHash, hash, behindWord, word, marked⟩ := read
  apply (reads_of_delimited? marked).of_suffix
  apply (List.dropWhile_suffix _).trans
  apply (after?_suffix word).trans
  exact (List.dropWhile_suffix _).trans ((skipOne?_suffix hash).trans (List.dropWhile_suffix _))

theorem reading_atStart {read? : List Char → Option (List Char × List Char × List Char)}
    (sound : ∀ {text target behind rest}, read? text = some (target, behind, rest) →
      Reads text target behind rest) : Recogniser.Reading (atStart read?) := by
  intro before text hit found
  simp only [atStart, Option.bind_eq_bind, Option.bind_eq_some_iff, Option.pure_def,
    Option.some.injEq] at found
  obtain ⟨-, -, ⟨target, behind, rest⟩, read, rfl⟩ := found
  exact ⟨target, behind, rest, sound read, rfl⟩

theorem reading_pythonImport : Recogniser.Reading pythonImport :=
  reading_atStart reads_of_readImport?

theorem reading_pythonFrom : Recogniser.Reading pythonFrom :=
  reading_atStart reads_of_readFrom?

theorem reading_packageUse (word : List Char) : Recogniser.Reading (packageUse word) :=
  reading_atStart reads_of_readPackage?

theorem reading_includeFile : Recogniser.Reading includeFile :=
  reading_atStart reads_of_readInclude?

end Line

/-! ## Declarations of Go and Rust -/

namespace Go

theorem reads_of_quoted? (read : quoted? text = some (target, behind, rest)) :
    Reads text target behind rest :=
  reads_of_delimited? read

theorem skipName_suffix (text : List Char) : skipName text <:+ text := by
  unfold skipName
  split
  next => exact List.suffix_rfl
  next taken rest took =>
    obtain ⟨-, -, rfl⟩ := takeSome?_eq_some took
    cases skipped : skipSome? isGap rest with
    | none => exact List.suffix_rfl
    | some later => exact (skipSome?_suffix skipped).trans (List.suffix_append taken rest)

theorem reading_single : Recogniser.Reading single := by
  intro before text hit found
  simp only [single, Option.bind_eq_bind, Option.bind_eq_some_iff, Option.pure_def,
    Option.some.injEq] at found
  obtain ⟨-, -, behindWord, word, behindGap, gap, ⟨target, behind, rest⟩, read, rfl⟩ := found
  refine ⟨target, behind, rest, (reads_of_quoted? read).of_suffix ?_, rfl⟩
  apply (skipName_suffix behindGap).trans
  exact (skipSome?_suffix gap).trans ((after?_suffix word).trans (List.dropWhile_suffix _))

theorem exact_block : Recogniser.Exact block := by
  intro before text hit found
  simp only [block, Option.bind_eq_bind, Option.bind_eq_some_iff, Option.pure_def,
    Option.some.injEq] at found
  obtain ⟨-, -, behindWord, word, inside, opened, rest, closed, rfl⟩ := found
  refine within_prefix ?_ (skipOne?_suffix closed)
  rw [List.takeWhile_append_dropWhile]
  apply (skipOne?_suffix opened).trans
  exact (List.dropWhile_suffix _).trans ((after?_suffix word).trans (List.dropWhile_suffix _))

theorem reading_entry : Recogniser.Reading entry := by
  intro before text hit found
  simp only [entry, Option.bind_eq_bind, Option.bind_eq_some_iff, Option.pure_def,
    Option.some.injEq] at found
  obtain ⟨⟨target, behind, rest⟩, read, rfl⟩ := found
  exact ⟨target, behind, rest, reads_of_quoted? read, rfl⟩

end Go

namespace Rust

/-- A character of a path. -/
def isPathChar (c : Char) : Bool :=
  isWordChar c || c == ':'

theorem furtherSegments_plain (fuel : Nat) (text : List Char) :
    ∀ c ∈ text.take (furtherSegments fuel text), isPathChar c = true := by
  fun_induction furtherSegments fuel text with
  | case1 => simp
  | case2 => simp
  | case3 fuel text segment rest read ih =>
    obtain ⟨later, colons, took⟩ := Option.bind_eq_some_iff.1 read
    obtain ⟨-, all, rfl⟩ := takeSome?_eq_some took
    obtain rfl := after?_eq_some_iff.1 colons
    have length : doubleColon.length = 2 := rfl
    rw [Nat.add_assoc, ← length, List.take_length_add_append, List.take_length_add_append]
    intro c member
    rw [List.mem_append, List.mem_append] at member
    obtain inColons | inSegment | later := member
    · obtain rfl : c = ':' := by simpa [doubleColon] using inColons
      rfl
    · rw [isPathChar, all c inSegment, Bool.true_or]
    · exact ih c later

theorem pathLength?_plain {length : Nat} (measured : pathLength? text = some length) :
    text.take length ≠ [] ∧ ∀ c ∈ text.take length, isPathChar c = true := by
  simp only [pathLength?, Option.bind_eq_bind, Option.bind_eq_some_iff, Option.pure_def,
    Option.some.injEq] at measured
  obtain ⟨⟨segment, rest⟩, took, rfl⟩ := measured
  obtain ⟨filled, all, shape⟩ := takeSome?_eq_some took
  -- The colons in front, if there are any, are a part of the path.
  have front : ∃ colons, (∀ c ∈ colons, isPathChar c = true) ∧
      (if (after? doubleColon text).isSome then 2 else 0) = colons.length ∧
      text = colons ++ (segment ++ rest) := by
    cases colons : after? doubleColon text with
    | none => exact ⟨[], by simp, rfl, by simpa [colons] using shape.symm⟩
    | some later =>
      rw [colons] at shape
      obtain rfl := after?_eq_some_iff.1 colons
      exact ⟨doubleColon, List.all_iff_forall_prop.1 (by decide), rfl,
        congrArg (doubleColon ++ ·) shape.symm⟩
  obtain ⟨colons, inColons, length, rfl⟩ := front
  dsimp only
  rw [length, Nat.add_assoc, List.take_length_add_append, List.take_length_add_append]
  refine ⟨by simp [filled], ?_⟩
  intro c member
  rw [List.mem_append, List.mem_append] at member
  obtain early | inSegment | later := member
  · exact inColons c early
  · rw [isPathChar, all c inSegment, Bool.true_or]
  · exact furtherSegments_plain _ _ c later

theorem skipScope_suffix (text : List Char) : skipScope text <:+ text := by
  unfold skipScope
  split
  next => exact List.suffix_rfl
  next inside opened =>
    have front := skipOne?_suffix opened
    cases closed : skipOne? (· == ')') (inside.dropWhile (· != ')')) with
    | none => exact List.suffix_rfl
    | some later =>
      exact (skipOne?_suffix closed).trans ((List.dropWhile_suffix _).trans front)

theorem skipVisibility_suffix (text : List Char) : skipVisibility text <:+ text := by
  unfold skipVisibility
  split
  next => exact List.suffix_rfl
  next rest word =>
    cases skipped : skipSome? isGap (skipScope rest) with
    | none => exact List.suffix_rfl
    | some later =>
      exact (skipSome?_suffix skipped).trans ((skipScope_suffix rest).trans (after?_suffix word))

theorem reading_useDeclaration : Recogniser.Reading useDeclaration := by
  intro before text hit found
  simp only [useDeclaration, Option.bind_eq_bind, Option.bind_eq_some_iff, Option.pure_def,
    Option.some.injEq] at found
  obtain ⟨-, -, behindWord, word, start, gap, length, measured, rfl⟩ := found
  obtain ⟨filled, all⟩ := pathLength?_plain measured
  refine ⟨start.take length, start.drop length, start.drop length, ?_, rfl⟩
  refine ⟨?_, List.suffix_rfl, filled, not_mem_of_class all (by decide)⟩
  rw [List.take_append_drop]
  apply (skipSome?_suffix gap).trans
  apply (after?_suffix word).trans
  exact (skipVisibility_suffix _).trans (List.dropWhile_suffix _)

end Rust

end FileGraph.Statement
