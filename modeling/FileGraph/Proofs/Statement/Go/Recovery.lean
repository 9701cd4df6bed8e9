import FileGraph.Proofs.Statement.Go.Syntax
import FileGraph.Proofs.Statement.Lines
import FileGraph.Proofs.Statement.Pieces

/-! # The import declarations of Go are found

Both forms of statement begin with the word `import` at the beginning of a line, and what follows the
word tells them apart, so that it is enough to know of every line whether a form opens there.

* `Form.opens`: whether a statement of a form may begin with a line.
* `Form.Calm`: a text behind whose line feeds no statement begins; it is passed over.
* `single_found`, `block_found`: a declaration is found by its own form.
* `search_entries`: the entries between the parentheses of a block.
* `Extract.references_sourceText`: the references of a source text.
-/

namespace FileGraph

namespace Statement.Go

open Text

/-! ## Where a statement may begin -/

inductive Form where
  | single
  | block
  deriving DecidableEq

namespace Form

def recogniser : Form → Recogniser
  | single => Go.single
  | block => Go.block

/-- Whether what stands behind the word `import` fits a form. -/
def follows (form : Form) (text : List Char) : Bool :=
  match form with
  | single => (skipSome? isGap text).any fun named => named.head? != some '('
  | block => (text.dropWhile isGap).head? == some '('

/-- Whether a statement of a form may begin with a line. -/
def opens (form : Form) (text : List Char) : Bool :=
  (after? importWord (text.dropWhile isGap)).any form.follows

end Form

def Declaration.form : Declaration → Form
  | single _ _ _ => .single
  | block _ _ _ _ _ _ => .block

namespace Form

variable {form : Form} {before : Option Char} {text line rest : List Char} {hit : Hit}

theorem follows_feed (form : Form) (line rest : List Char) :
    form.follows (line ++ '\n' :: rest) = form.follows line := by
  have parenthesis : ∀ line : List Char,
      ((line ++ '\n' :: rest).head? == some '(') = (line.head? == some '(') := by
    intro line
    cases line <;> rfl
  cases form with
  | single =>
    rw [follows, follows, skipSome?_feed (by decide : isGap '\n' = false), Option.any_map]
    exact congrArg (skipSome? isGap line).any (funext fun named => congrArg not (parenthesis named))
  | block =>
    rw [follows, follows, dropWhile_feed (by decide : isGap '\n' = false)]
    exact parenthesis _

theorem opens_feed (form : Form) (line rest : List Char) :
    form.opens (line ++ '\n' :: rest) = form.opens line := by
  rw [opens, opens, dropWhile_feed (by decide : isGap '\n' = false),
    after?_feed (by decide : '\n' ∉ importWord), Option.any_map]
  exact congrArg (after? importWord (line.dropWhile isGap)).any
    (funext fun behind => form.follows_feed behind rest)

theorem opens_of_eq_some (found : form.recogniser before text = some hit) :
    atLineStart before = true ∧ form.opens text = true := by
  cases form with
  | single =>
    simp only [recogniser, Go.single, Option.bind_eq_bind, Option.bind_eq_some_iff] at found
    obtain ⟨_, start, behindWord, word, named, gap, read, quoted, -⟩ := found
    have unopened : named.head? ≠ some '(' := by
      intro parenthesis
      obtain ⟨later, rfl⟩ := List.head?_eq_some_iff.1 parenthesis
      have unnamed : skipName ('(' :: later) = '(' :: later := by
        rw [skipName, takeSome?, List.takeWhile_cons_of_neg (by decide)]
      rw [unnamed] at quoted
      cases quoted
    exact ⟨by simpa [guard] using start, by simp [opens, word, follows, gap, unopened]⟩
  | block =>
    simp only [recogniser, Go.block, Option.bind_eq_bind, Option.bind_eq_some_iff] at found
    obtain ⟨_, start, behindWord, word, inside, opened, -⟩ := found
    obtain ⟨c, parenthesis, shape⟩ := exists_of_skipOne? opened
    obtain rfl : c = '(' := by simpa using parenthesis
    exact ⟨by simpa [guard] using start, by simp [opens, word, follows, shape]⟩

/-! ## Passing over lines -/

/-- Behind no line feed of a text a statement begins. -/
def Calm (form : Form) (text : List Char) : Prop :=
  ∀ front inside, text = front ++ '\n' :: inside → form.opens inside = false

theorem calm_of_feedless (feedless : '\n' ∉ text) : form.Calm text := by
  rintro front inside rfl
  exact absurd (by simp) feedless

theorem Calm.of_suffix (calm : form.Calm text) (suffix : rest <:+ text) : form.Calm rest := by
  obtain ⟨earlier, rfl⟩ := suffix
  rintro front inside rfl
  exact calm (earlier ++ front) inside (List.append_assoc ..).symm

theorem calm_cons_iff : form.Calm ('\n' :: text) ↔ form.opens text = false ∧ form.Calm text := by
  refine ⟨fun calm => ⟨calm [] text rfl, calm.of_suffix (List.suffix_cons _ _)⟩, ?_⟩
  rintro ⟨first, later⟩ front inside shape
  cases front with
  | nil => rwa [← (List.cons.inj shape).2]
  | cons c front => exact later front inside (List.cons.inj shape).2

theorem Calm.append (calm : form.Calm text) (feedless : '\n' ∉ line) :
    form.Calm (line ++ text) := by
  induction line with
  | nil => exact calm
  | cons c line ih =>
    rw [List.mem_cons, not_or] at feedless
    intro front inside shape
    cases front with
    | nil => exact absurd (List.cons.inj shape).1.symm feedless.1
    | cons d front => exact ih feedless.2 front inside (List.cons.inj shape).2

theorem Calm.cons_line (calm : form.Calm ('\n' :: text)) (feedless : '\n' ∉ line)
    (quiet : form.opens line = false) : form.Calm ('\n' :: (line ++ '\n' :: text)) :=
  calm_cons_iff.2 ⟨(form.opens_feed line text).trans quiet, calm.append feedless⟩

theorem Calm.search {p : Place} (calm : form.Calm text)
    (first : atLineStart p.before = true → form.opens text = false) (rest : List Char) :
    search form.recogniser 0 p (text ++ '\n' :: rest) =
      search form.recogniser 0 (p.advance (text ++ ['\n'])) rest := by
  rw [← List.singleton_append, ← List.append_assoc]
  apply search_pass
  intro front inside filled shape
  rw [Option.eq_none_iff_forall_ne_some]
  intro hit found
  obtain ⟨start, opened⟩ := opens_of_eq_some found
  -- The text ends where `inside` ends but for the line feed.
  obtain ⟨later, c, rfl⟩ := (List.eq_nil_or_concat' inside).resolve_left filled
  rw [← List.append_assoc] at shape
  obtain ⟨rfl, feed⟩ := List.append_inj' shape rfl
  obtain rfl : '\n' = c := by simpa using feed
  rw [List.append_assoc, List.singleton_append, opens_feed] at opened
  have quiet : form.opens later = false := by
    obtain rfl | ⟨earlier, c, rfl⟩ := List.eq_nil_or_concat' front
    · exact first start
    · rw [Place.before_advance_concat] at start
      obtain rfl : c = '\n' := by simpa [atLineStart] using start
      exact calm earlier later (by simp)
  rw [quiet] at opened
  cases opened

/-! ## What opens no statement -/

theorem opens_indent (form : Form) (indent : Gap) (text : List Char) :
    form.opens (indent.1 ++ text) = form.opens text := by
  rw [opens, opens, List.dropWhile_append_of_pos (List.all_eq_true.1 indent.2)]

theorem opens_gap (form : Form) (gap : Gap) : form.opens gap.1 = false := by
  have empty := form.opens_indent gap []
  rwa [List.append_nil] at empty

theorem opens_cons (form : Form) {c : Char} (solid : isGap c = false) (foreign : c ≠ 'i')
    (text : List Char) : form.opens (c :: text) = false := by
  rw [opens, List.dropWhile_cons_of_neg (by simp [solid]), importWord, after?, if_neg foreign.symm]
  rfl

theorem isNameChar_eq_false_of_isGap {c : Char} (gap : isGap c = true) : isNameChar c = false := by
  obtain rfl | rfl : c = ' ' ∨ c = '\t' := by simpa [isGap] using gap
  all_goals decide

theorem stop_of_follows (follows : form.follows text = true) :
    ∃ c later, text = c :: later ∧ isNameChar c = false := by
  cases form with
  | single =>
    obtain ⟨named, gap, -⟩ := Option.any_eq_true _ _ |>.1 follows
    obtain ⟨c, later, isGap, rfl⟩ := exists_of_skipSome? gap
    exact ⟨c, later, rfl, isNameChar_eq_false_of_isGap isGap⟩
  | block =>
    cases text with
    | nil => cases follows
    | cons c later =>
      refine ⟨c, later, rfl, ?_⟩
      by_cases gap : isGap c = true
      · exact isNameChar_eq_false_of_isGap gap
      · rw [Form.follows, List.dropWhile_cons_of_neg gap] at follows
        obtain rfl : c = '(' := by simpa using follows
        decide

theorem takeWhile_isNameChar {name : List Char} (letters : name.all isNameChar = true) {c : Char}
    (stop : isNameChar c = false) (rest : List Char) :
    (name ++ c :: rest).takeWhile isNameChar = name := by
  rw [List.takeWhile_append_of_pos (List.all_eq_true.1 letters),
    List.takeWhile_cons_of_neg (by simp [stop]), List.append_nil]

theorem exists_of_space (space : Space) : ∃ c later, isGap c = true ∧ space.1 = c :: later := by
  obtain ⟨gap, filled, blank⟩ := space
  cases gap with
  | nil => exact absurd rfl filled
  | cons c later =>
    rw [List.all_cons, Bool.and_eq_true] at blank
    exact ⟨c, later, blank.1, rfl⟩

/-- A name other than `import` opens no statement, not even one that begins with that word. -/
theorem opens_name (form : Form) (name : Name) (space : Space) (text : List Char) :
    form.opens (name.text ++ (space.1 ++ text)) = false := by
  obtain ⟨name, filled, letters, free⟩ := name
  obtain ⟨blank, later, gap, shape⟩ := exists_of_space space
  have whole := takeWhile_isNameChar letters (isNameChar_eq_false_of_isGap gap) (later ++ text)
  rw [Bool.eq_false_iff]
  intro opened
  have flush : (name ++ (space.1 ++ text)).dropWhile isGap = name ++ (space.1 ++ text) := by
    cases name with
    | nil => exact absurd rfl filled
    | cons c name =>
      refine List.dropWhile_cons_of_neg fun gap => ?_
      rw [List.all_cons, isNameChar_eq_false_of_isGap gap] at letters
      cases letters
  rw [opens, flush, Option.any_eq_true] at opened
  obtain ⟨behind, word, follows⟩ := opened
  obtain ⟨c, rest, rfl, stop⟩ := stop_of_follows follows
  have own := takeWhile_isNameChar (by decide : importWord.all isNameChar = true) stop rest
  rw [← after?_eq_some_iff.1 word, shape, List.cons_append, whole] at own
  exact free own

theorem opens_entry (form : Form) (entry : Entry) : form.opens entry.text = false := by
  obtain ⟨name, target, tail, filled, plain⟩ := entry
  cases name with
  | none => exact form.opens_cons (by decide) (by decide) _
  | some named =>
    obtain ⟨name, space⟩ := named
    have whole := form.opens_name name space
      (Entry.quoted ⟨none, target, tail, filled, plain⟩ ++ tail.1)
    simpa [Entry.text, Entry.lead, Entry.quoted] using whole

/-! ## Lines of declarations -/

theorem not_mem_gap {c : Char} (solid : isGap c = false) {gap : List Char}
    (blank : gap.all isGap = true) : c ∉ gap :=
  not_mem_of_class (List.all_eq_true.1 blank) solid

theorem not_mem_lead {c : Char} (solid : isGap c = false) (foreign : isNameChar c = false)
    (entry : Entry) : c ∉ entry.lead := by
  obtain ⟨name, target, tail, filled, plain⟩ := entry
  cases name with
  | none => exact List.not_mem_nil
  | some named =>
    obtain ⟨name, space⟩ := named
    have own : c ∉ name.text := not_mem_of_class (List.all_eq_true.1 name.letters) foreign
    simpa [Entry.lead, own] using not_mem_gap solid space.2.2

theorem feedless_entry (entry : Entry) : '\n' ∉ entry.text := by
  have lead : '\n' ∉ entry.lead := not_mem_lead (by decide) (by decide) entry
  simp [Entry.text, Entry.quoted, lead, entry.plain, entry.tail.2]

theorem Calm.cons_margin (calm : form.Calm ('\n' :: text)) (margin : Margin) :
    form.Calm ('\n' :: (margin.text ++ text)) := by
  obtain ⟨lines, indent⟩ := margin
  induction lines with
  | nil =>
    rw [calm_cons_iff] at calm
    exact calm_cons_iff.2 ⟨(form.opens_indent indent text).trans calm.1,
      calm.2.append (not_mem_gap (by decide) indent.2)⟩
  | cons line lines ih =>
    have first := ih.cons_line (not_mem_gap (by decide) line.2) (form.opens_gap line)
    simpa [Margin.text, Margin.above] using first

theorem Calm.cons_items (calm : form.Calm ('\n' :: text)) (items : List Item) :
    form.Calm ('\n' :: (items.flatMap Item.text ++ text)) := by
  induction items with
  | nil => exact calm
  | cons item later ih =>
    have line := ih.cons_line (feedless_entry item.entry) (form.opens_entry item.entry)
    simpa [Item.text] using line.cons_margin item.margin

/-- No statement begins between the parentheses of a block or on its last line. -/
theorem calm_items (form : Form) (items : List Item) (last : Margin) (tail : Tail) :
    form.Calm ('\n' :: (items.flatMap Item.text ++ (last.text ++ ')' :: tail.1))) := by
  have line : form.Calm ('\n' :: ')' :: tail.1) :=
    calm_cons_iff.2 ⟨form.opens_cons (by decide) (by decide) _,
      calm_of_feedless (by simp [tail.2.2])⟩
  exact (line.cons_margin last).cons_items items

theorem exists_of_lead (entry : Entry) (rest : List Char) :
    ∃ c later, entry.lead ++ '"' :: rest = c :: later ∧ isGap c = false ∧ c ≠ '(' := by
  obtain ⟨name, target, tail, filled, plain⟩ := entry
  cases name with
  | none => exact ⟨'"', rest, rfl, by decide, by decide⟩
  | some named =>
    obtain ⟨⟨name, named, letters, free⟩, space⟩ := named
    obtain ⟨c, name, rfl⟩ := List.exists_cons_of_ne_nil named
    rw [List.all_cons, Bool.and_eq_true] at letters
    refine ⟨c, name ++ (space.1 ++ '"' :: rest), by simp [Entry.lead], ?_, ?_⟩
    · rw [Bool.eq_false_iff]
      intro gap
      rw [isNameChar_eq_false_of_isGap gap] at letters
      cases letters.1
    · rintro rfl
      exact absurd letters.1 (by decide)

theorem dropWhile_gap {gap : List Char} (blank : gap.all isGap = true) {c : Char}
    (solid : isGap c = false) (rest : List Char) :
    (gap ++ c :: rest).dropWhile isGap = c :: rest := by
  rw [List.dropWhile_append_of_pos (List.all_eq_true.1 blank),
    List.dropWhile_cons_of_neg (by simp [solid])]

theorem opens_import (form : Form) (text : List Char) :
    form.opens (importWord ++ text) = form.follows text := by
  have word : after? importWord (importWord ++ text) = some text := after?_eq_some_iff.2 rfl
  have flush : (importWord ++ text).dropWhile isGap = importWord ++ text :=
    List.dropWhile_cons_of_neg (by decide)
  rw [opens, flush, word, Option.any_some]

theorem not_opens_single (space : Space) (entry : Entry) :
    block.opens (importWord ++ (space.1 ++ entry.text)) = false := by
  obtain ⟨c, later, shape, solid, unopened⟩ :=
    exists_of_lead entry (entry.target ++ ['"'] ++ entry.tail.1)
  have begins : entry.text = c :: later := by simpa [Entry.text, Entry.quoted] using shape
  rw [opens_import, follows, begins, dropWhile_gap space.2.2 solid]
  simpa using unopened

theorem not_opens_block (gap after : Gap) :
    single.opens (importWord ++ (gap.1 ++ '(' :: after.1)) = false := by
  rw [opens_import, follows]
  obtain ⟨gap, blank⟩ := gap
  cases gap with
  | nil => rfl
  | cons c gap =>
    rw [List.all_cons, Bool.and_eq_true] at blank
    rw [List.cons_append, skipSome?, if_pos blank.1, dropWhile_gap blank.2 (by decide)]
    rfl

theorem calm_single (margin : Margin) (space : Space) (entry : Entry) :
    block.Calm ('\n' :: (margin.text ++ (importWord ++ (space.1 ++ entry.text)))) := by
  have feedless : '\n' ∉ importWord ++ (space.1 ++ entry.text) := by
    simp only [List.mem_append, not_or]
    exact ⟨by decide, not_mem_gap (by decide) space.2.2, feedless_entry entry⟩
  have line : block.Calm ('\n' :: (importWord ++ (space.1 ++ entry.text))) :=
    calm_cons_iff.2 ⟨not_opens_single space entry, calm_of_feedless feedless⟩
  exact line.cons_margin margin

theorem calm_block (margin : Margin) (gap after : Gap) {text : List Char}
    (calm : single.Calm ('\n' :: text)) :
    single.Calm ('\n' :: (margin.text ++
      (importWord ++ (gap.1 ++ '(' :: after.1) ++ '\n' :: text))) := by
  have feedless : '\n' ∉ importWord ++ (gap.1 ++ '(' :: after.1) := by
    simp only [List.mem_append, List.mem_cons, not_or]
    exact ⟨by decide, not_mem_gap (by decide) gap.2, by decide, not_mem_gap (by decide) after.2⟩
  exact (calm.cons_line feedless (not_opens_block gap after)).cons_margin margin

theorem search_other {declaration : Declaration} (other : form ≠ declaration.form) (p : Place)
    (rest : List Char) : search form.recogniser 0 p (declaration.text ++ rest) =
      search form.recogniser 0 (p.advance declaration.text) rest := by
  obtain ⟨text, shape, calm⟩ :
      ∃ text, declaration.text = text ++ ['\n'] ∧ form.Calm ('\n' :: text) := by
    cases declaration with
    | single margin space entry =>
      obtain rfl : form = block := by
        cases form with
        | single => exact absurd rfl other
        | block => rfl
      refine ⟨_, ?_, calm_single margin space entry⟩
      simp [Declaration.text, Declaration.opening, Declaration.items, Declaration.closing,
        Item.text, Margin.text, Margin.above]
    | block margin gap after items last tail =>
      obtain rfl : form = single := by
        cases form with
        | single => rfl
        | block => exact absurd rfl other
      refine ⟨_, ?_, calm_block margin gap after (calm_items single items last tail)⟩
      simp [Declaration.text, Declaration.opening, Declaration.items, Declaration.closing]
  rw [calm_cons_iff] at calm
  have passed := calm.2.search (fun _ => calm.1) (p := p) rest
  rw [shape, List.append_assoc]
  exact passed

theorem search_above (form : Form) (margin : Margin) {p : Place} (start : atLineStart p.before = true)
    (rest : List Char) :
    search form.recogniser 0 p (margin.above ++ rest) =
        search form.recogniser 0 (p.advance margin.above) rest ∧
      atLineStart (p.advance margin.above).before = true := by
  obtain ⟨lines, indent⟩ := margin
  induction lines generalizing p with
  | nil => exact ⟨rfl, start⟩
  | cons line lines ih =>
    have calm : form.Calm line.1 := calm_of_feedless (not_mem_gap (by decide) line.2)
    have next : atLineStart (p.advance (line.1 ++ ['\n'])).before = true := by
      rw [Place.before_advance_concat]
      decide
    have passed := calm.search (fun _ => form.opens_gap line) (p := p)
      ((Margin.mk lines indent).above ++ rest)
    have later := ih next
    have shape : (Margin.mk (line :: lines) indent).above =
        line.1 ++ ['\n'] ++ (Margin.mk lines indent).above := by
      simp [Margin.above]
    rw [shape, Place.advance_append]
    refine ⟨?_, later.2⟩
    rw [← later.1, ← passed, List.append_assoc, List.append_assoc]
    rfl

end Form

/-! ## Declarations are found -/

theorem quoted?_target (entry : Entry) (rest : List Char) :
    quoted? (entry.quoted ++ rest) = some (entry.target, '"' :: rest, rest) := by
  have inside : ∀ c ∈ entry.target, (!(c == '"') && c != '\n') = true := by
    intro c member
    have quote : c ≠ '"' := fun same => entry.plain.1 (same ▸ member)
    have feed : c ≠ '\n' := fun same => entry.plain.2.2 (same ▸ member)
    simp [quote, feed]
  have taken : takeSome? (fun c => !(c == '"') && c != '\n') (entry.target ++ '"' :: rest) =
      some (entry.target, '"' :: rest) :=
    takeSome?_append entry.filled inside (by decide) rest
  simp [quoted?, delimited?, Entry.quoted, skipOne?, taken]

theorem skipSome?_space (space : Space) {c : Char} (solid : isGap c = false) (rest : List Char) :
    skipSome? isGap (space.1 ++ c :: rest) = some (c :: rest) := by
  obtain ⟨blank, later, gap, shape⟩ := Form.exists_of_space space
  have blanks := space.2.2
  rw [shape, List.all_cons, Bool.and_eq_true] at blanks
  rw [shape, List.cons_append, skipSome?, if_pos gap, Form.dropWhile_gap blanks.2 solid]

theorem skipName_lead (entry : Entry) (rest : List Char) :
    skipName (entry.lead ++ '"' :: rest) = '"' :: rest := by
  obtain ⟨name, target, tail, filled, plain⟩ := entry
  cases name with
  | none =>
    rw [Entry.lead, Option.toList_none, List.flatMap_nil, List.nil_append, skipName, takeSome?,
      List.takeWhile_cons_of_neg (by decide)]
  | some named =>
    obtain ⟨name, space⟩ := named
    obtain ⟨c, later, gap, shape⟩ := Form.exists_of_space space
    have taken : takeSome? (fun c => isWordChar c || c == '.')
        (name.text ++ c :: (later ++ '"' :: rest)) = some (name.text, c :: (later ++ '"' :: rest)) :=
      takeSome?_append name.filled (List.all_eq_true.1 name.letters)
        (Form.isNameChar_eq_false_of_isGap gap) (later ++ '"' :: rest)
    have skipped := skipSome?_space space (by decide : isGap '"' = false) rest
    rw [shape, List.cons_append] at skipped
    have text : Entry.lead ⟨some (name, space), target, tail, filled, plain⟩ ++ '"' :: rest =
        name.text ++ c :: (later ++ '"' :: rest) := by
      simp [Entry.lead, shape]
    rw [text, skipName, taken]
    simp [skipped]

theorem single_found {before : Option Char} (start : atLineStart before = true) (indent : Gap)
    (space : Space) (entry : Entry) (rest : List Char) :
    single before (indent.1 ++ (importWord ++ (space.1 ++ (entry.lead ++ (entry.quoted ++ rest))))) =
      some ⟨indent.1 ++ (importWord ++ (space.1 ++ (entry.lead ++ ['"']))), entry.target, ['"']⟩ := by
  have passed : (guard (atLineStart before = true) : Option Unit) = some () := if_pos start
  have flush : ∀ text, (indent.1 ++ (importWord ++ text)).dropWhile isGap = importWord ++ text :=
    fun text => Form.dropWhile_gap indent.2 (by decide) _
  have word : ∀ text, after? importWord (importWord ++ text) = some text :=
    fun text => after?_eq_some_iff.2 rfl
  have skipped : skipSome? isGap (space.1 ++ (entry.lead ++ (entry.quoted ++ rest))) =
      some (entry.lead ++ (entry.quoted ++ rest)) := by
    obtain ⟨c, later, shape, solid, -⟩ :=
      Form.exists_of_lead entry (entry.target ++ ['"'] ++ rest)
    have begins : entry.lead ++ (entry.quoted ++ rest) = c :: later := by
      simpa [Entry.quoted] using shape
    rw [begins, skipSome?_space space solid]
  have named : skipName (entry.lead ++ (entry.quoted ++ rest)) = entry.quoted ++ rest :=
    skipName_lead entry _
  have cut := within_eq (indent.1 ++ (importWord ++ (space.1 ++ (entry.lead ++ ['"']))))
    entry.target ['"'] rest
  simp only [single, passed, flush, word, skipped, named, quoted?_target, Option.bind_eq_bind,
    Option.bind_some, Option.pure_def, Option.some.injEq]
  simpa [Entry.quoted] using cut

/-- A block is found; it ends at the first closing parenthesis. -/
theorem block_found {before : Option Char} (start : atLineStart before = true) (indent gap : Gap)
    {body : List Char} (inside : ')' ∉ body) (rest : List Char) :
    block before (indent.1 ++ (importWord ++ (gap.1 ++ '(' :: (body ++ ')' :: rest)))) =
      some ⟨indent.1 ++ (importWord ++ (gap.1 ++ ['('])), body, [')']⟩ := by
  have passed : (guard (atLineStart before = true) : Option Unit) = some () := if_pos start
  have flush : ∀ text, (indent.1 ++ (importWord ++ text)).dropWhile isGap = importWord ++ text :=
    fun text => Form.dropWhile_gap indent.2 (by decide) _
  have word : ∀ text, after? importWord (importWord ++ text) = some text :=
    fun text => after?_eq_some_iff.2 rfl
  have plain : ∀ c ∈ body, (c != ')') = true :=
    fun c member => bne_iff_ne.2 fun same => inside (same ▸ member)
  have opened : ∀ c : Char, ∀ text, skipOne? (· == c) (c :: text) = some text :=
    fun c text => if_pos (beq_self_eq_true c)
  have taken : (body ++ ')' :: rest).takeWhile (· != ')') = body := by
    rw [List.takeWhile_append_of_pos plain, List.takeWhile_cons_of_neg (by decide), List.append_nil]
  have left : (body ++ ')' :: rest).dropWhile (· != ')') = ')' :: rest := by
    rw [List.dropWhile_append_of_pos plain, List.dropWhile_cons_of_neg (by decide)]
  have cut := within_eq (indent.1 ++ (importWord ++ (gap.1 ++ ['(']))) body [')'] rest
  simp only [block, passed, flush, word, Form.dropWhile_gap gap.2 (by decide : isGap '(' = false),
    opened, taken, left, Option.bind_eq_bind, Option.bind_some, Option.pure_def, Option.some.injEq]
  simpa using cut

/-! ## The entries of a block -/

/-- The place of the target of an item that begins at a place. -/
def Item.spot (piece : Place × Item) : Place × List Char :=
  (piece.1.advance (piece.2.lead ++ ['"']), piece.2.entry.target)

theorem entry_found (before : Option Char) (own : Entry) (rest : List Char) :
    entry before (own.quoted ++ rest) = some ⟨['"'], own.target, ['"']⟩ := by
  have cut := within_eq ['"'] own.target ['"'] rest
  simp only [entry, quoted?_target, Option.bind_eq_bind, Option.bind_some, Option.pure_def,
    Option.some.injEq]
  simpa [Entry.quoted] using cut

theorem search_unquoted (p : Place) {part : List Char} (unquoted : '"' ∉ part) (rest : List Char) :
    search entry 0 p (part ++ rest) = search entry 0 (p.advance part) rest := by
  apply search_pass
  intro front inside filled shape
  cases inside with
  | nil => exact absurd rfl filled
  | cons c inside =>
    have foreign : c ≠ '"' := by
      rintro rfl
      exact unquoted (by simp [shape])
    simp [entry, quoted?, delimited?, skipOne?, foreign]

theorem not_mem_margin {c : Char} (solid : isGap c = false) (feed : c ≠ '\n') (margin : Margin) :
    c ∉ margin.text := by
  have lines : c ∉ margin.above := by
    intro member
    obtain ⟨line, -, inside⟩ := List.mem_flatMap.1 member
    have outside : c ∉ line.1 := Form.not_mem_gap solid line.2
    simp [outside, feed] at inside
  simp [Margin.text, lines, Form.not_mem_gap solid margin.indent.2]

theorem not_mem_lead {c : Char} (solid : isGap c = false) (feed : c ≠ '\n')
    (foreign : isNameChar c = false) (item : Item) : c ∉ item.lead := by
  simp [Item.lead, not_mem_margin solid feed item.margin,
    Form.not_mem_lead solid foreign item.entry]

theorem search_item (p : Place) (item : Item) {left : List Char} (unquoted : '"' ∉ left)
    (rest : List Char) :
    search entry 0 p (item.lead ++ (item.entry.quoted ++ (left ++ rest))) = Item.spot (p, item) ::
      search entry 0 (p.advance (item.lead ++ (item.entry.quoted ++ left))) rest := by
  have lead : '"' ∉ item.lead := not_mem_lead (by decide) (by decide) (by decide) item
  have found := entry_found (p.advance item.lead).before item.entry (left ++ rest)
  have filled : item.entry.quoted ≠ [] := List.cons_ne_nil _ _
  rw [search_unquoted p lead, search_hit filled found (by simp [Hit.size, Entry.quoted]; omega),
    search_unquoted _ unquoted]
  simp only [Item.spot, Place.advance_append]

theorem Item.text_eq (item : Item) :
    item.text = item.lead ++ (item.entry.quoted ++ (item.entry.tail.1 ++ ['\n'])) := by
  simp [text, lead, Entry.text]

theorem search_entries (p : Place) (items : List Item) (last : Margin) :
    search entry 0 p ((items.flatMap Item.text ++ last.text).takeWhile (· != ')')) =
      (placed Item.text p (readable items)).map Item.spot := by
  induction items generalizing p with
  | nil =>
    have unquoted : '"' ∉ last.text.takeWhile (· != ')') := fun member =>
      not_mem_margin (by decide) (by decide) last ((List.takeWhile_prefix _).subset member)
    have passed := search_unquoted p unquoted []
    rw [List.append_nil] at passed
    rw [List.flatMap_nil, List.nil_append, passed]
    rfl
  | cons item later ih =>
    have front : ∀ c ∈ item.lead ++ item.entry.quoted, (c != ')') = true := by
      intro c member
      refine bne_iff_ne.2 fun same => ?_
      have lead : ')' ∉ item.lead := not_mem_lead (by decide) (by decide) (by decide) item
      have quoted : ')' ∉ item.entry.quoted := by simp [Entry.quoted, item.entry.plain]
      rw [same] at member
      exact (List.mem_append.1 member).elim lead quoted
    have shape : (item :: later).flatMap Item.text ++ last.text = (item.lead ++ item.entry.quoted) ++
        (item.entry.tail.1 ++ '\n' :: (later.flatMap Item.text ++ last.text)) := by
      simp [Item.text_eq]
    rw [shape, List.takeWhile_append_of_pos front, List.append_assoc, readable]
    by_cases parenthesis : ')' ∈ item.entry.tail.1
    · -- The comment closes the block.
      obtain ⟨left, behind, cut, apart⟩ := List.eq_append_cons_of_mem parenthesis
      have plain : ∀ c ∈ left, (c != ')') = true :=
        fun c member => bne_iff_ne.2 fun same => apart (same ▸ member)
      have unquoted : '"' ∉ left := fun member =>
        item.entry.tail.2.1 (cut ▸ List.mem_append_left _ member)
      have found := search_item p item unquoted []
      rw [List.append_nil] at found
      rw [if_pos parenthesis, cut, List.append_assoc, List.takeWhile_append_of_pos plain,
        List.cons_append, List.takeWhile_cons_of_neg (by decide), List.append_nil, found]
      rfl
    · have plain : ∀ c ∈ item.entry.tail.1 ++ ['\n'], (c != ')') = true := by
        intro c member
        refine bne_iff_ne.2 fun same => ?_
        rw [same] at member
        simp [parenthesis] at member
      have unquoted : '"' ∉ item.entry.tail.1 ++ ['\n'] := by simp [item.entry.tail.2]
      rw [if_neg parenthesis, ← List.singleton_append, ← List.append_assoc item.entry.tail.1,
        List.takeWhile_append_of_pos plain, search_item p item unquoted, ← Item.text_eq, ih, placed,
        List.map_cons]

/-! ## Declarations -/

/-- The targets of what a form finds: a block is searched for entries. -/
def Form.targets : Form → List (Place × List Char) → List (Place × List Char)
  | single, spots => spots
  | block, spots => spots.flatMap fun (place, body) => search entry 0 place body

/-- The targets of the readable items of a declaration that begins at a place. -/
def Declaration.spots (piece : Place × Declaration) : List (Place × List Char) :=
  (placed Item.text (piece.1.advance piece.2.opening) (readable piece.2.items)).map Item.spot

theorem exists_takeWhile_parenthesis (inner tail : List Char) :
    ∃ left, inner ++ ')' :: tail = inner.takeWhile (· != ')') ++ ')' :: left := by
  induction inner with
  | nil => exact ⟨tail, rfl⟩
  | cons c inner ih =>
    by_cases closes : c = ')'
    · exact ⟨inner ++ ')' :: tail, by simp [closes]⟩
    · obtain ⟨left, shape⟩ := ih
      exact ⟨left, by simp [closes, shape]⟩

/-- A statement behind empty lines is found, and what is left of its declaration passed over. -/
theorem Form.search_statement {form : Form} {p : Place} (start : atLineStart p.before = true)
    (margin : Margin) {front left : List Char} {last : Char} {hit : Hit} {rest : List Char}
    (found : ∀ before, atLineStart before = true →
      form.recogniser before (front ++ [last] ++ (left ++ '\n' :: rest)) = some hit)
    (size : hit.size = (front ++ [last]).length) (line : last ≠ '\n') (calm : form.Calm left) :
    search form.recogniser 0 p (margin.above ++ (front ++ [last] ++ (left ++ '\n' :: rest))) =
      (p.advance (margin.above ++ hit.lead), hit.target) ::
        search form.recogniser 0
          (p.advance (margin.above ++ (front ++ [last] ++ (left ++ ['\n'])))) rest := by
  obtain ⟨passed, next⟩ := search_above form margin start
    (front ++ [last] ++ (left ++ '\n' :: rest))
  have filled : front ++ [last] ≠ [] := by simp
  have inLine : atLineStart ((p.advance margin.above).advance (front ++ [last])).before = true →
      form.opens left = false := by
    intro start
    rw [Place.before_advance_concat] at start
    exact absurd (by simpa [atLineStart] using start) line
  rw [passed, search_hit filled (found _ next) size, calm.search inLine]
  simp only [Place.advance_append]

theorem search_single {p : Place} (start : atLineStart p.before = true) (margin : Margin)
    (space : Space) (entry : Entry) (rest : List Char) :
    search single 0 p ((Declaration.single margin space entry).text ++ rest) =
      Declaration.spots (p, .single margin space entry) ++
        search single 0 (p.advance (Declaration.single margin space entry).text) rest := by
  let front := margin.indent.1 ++ (importWord ++ (space.1 ++ (entry.lead ++ '"' :: entry.target)))
  have text : (Declaration.single margin space entry).text =
      margin.above ++ (front ++ ['"'] ++ (entry.tail.1 ++ ['\n'])) := by
    simp [front, Declaration.text, Declaration.opening, Declaration.items, Declaration.closing,
      Item.text, Entry.text, Entry.quoted, Margin.text, Margin.above]
  have found : ∀ before, atLineStart before = true →
      Form.single.recogniser before (front ++ ['"'] ++ (entry.tail.1 ++ '\n' :: rest)) =
        some ⟨margin.indent.1 ++ (importWord ++ (space.1 ++ (entry.lead ++ ['"']))),
          entry.target, ['"']⟩ := by
    intro before start
    have own := single_found start margin.indent space entry (entry.tail.1 ++ '\n' :: rest)
    simpa [front, Entry.quoted, Form.recogniser] using own
  have size : Hit.size ⟨margin.indent.1 ++ (importWord ++ (space.1 ++ (entry.lead ++ ['"']))),
      entry.target, ['"']⟩ = (front ++ ['"']).length := by
    simp [front, Hit.size]
    omega
  -- What is left of the line is no other statement, as it has no line feed.
  have searched := Form.search_statement start margin found size (by decide)
    (Form.calm_of_feedless entry.tail.2.2)
  have spot : Declaration.spots (p, .single margin space entry) = [(p.advance (margin.above ++
      (margin.indent.1 ++ (importWord ++ (space.1 ++ (entry.lead ++ ['"']))))), entry.target)] := by
    simp [Declaration.spots, Declaration.items, Declaration.opening, readable, placed, Item.spot,
      Item.lead, Margin.text, Margin.above, ← Place.advance_append]
  have shape : (Declaration.single margin space entry).text ++ rest =
      margin.above ++ (front ++ ['"'] ++ (entry.tail.1 ++ '\n' :: rest)) := by
    simp [text]
  rw [shape, text, spot]
  exact searched

theorem search_block {p : Place} (start : atLineStart p.before = true) (margin : Margin)
    (gap after : Gap) (items : List Item) (last : Margin) (tail : Tail) (rest : List Char) :
    ∃ spot : Place × List Char,
      search block 0 p ((Declaration.block margin gap after items last tail).text ++ rest) =
        spot ::
          search block 0 (p.advance (Declaration.block margin gap after items last tail).text) rest ∧
      search entry 0 spot.1 spot.2 =
        Declaration.spots (p, .block margin gap after items last tail) := by
  let inner := items.flatMap Item.text ++ last.text
  let body := after.1 ++ '\n' :: inner.takeWhile (· != ')')
  let lead := margin.indent.1 ++ (importWord ++ (gap.1 ++ ['(']))
  -- The body goes as far as the first closing parenthesis, even if that one stands in a comment.
  obtain ⟨left, closed⟩ := exists_takeWhile_parenthesis inner tail.1
  have inside : ')' ∉ body := by
    have feed : ')' ∉ after.1 := Form.not_mem_gap (by decide) after.2
    have plain : ')' ∉ inner.takeWhile (· != ')') := fun member =>
      absurd (List.mem_takeWhile_imp member) (by decide)
    simp [body, feed, plain]
  have text : (Declaration.block margin gap after items last tail).text =
      margin.above ++ (lead ++ body ++ [')'] ++ (left ++ ['\n'])) := by
    have regrouped : (Declaration.block margin gap after items last tail).text =
        margin.above ++ (lead ++ (after.1 ++ '\n' :: (inner ++ ')' :: tail.1)) ++ ['\n']) := by
      simp [lead, inner, Declaration.text, Declaration.opening, Declaration.items,
        Declaration.closing, Margin.text]
    rw [regrouped, closed]
    simp [body]
  -- What is left of the block behind that parenthesis opens no other one.
  have calm : Form.block.Calm left := by
    have whole := Form.calm_items .block items last tail
    rw [← List.append_assoc, closed] at whole
    refine whole.of_suffix ⟨'\n' :: (inner.takeWhile (· != ')') ++ [')']), ?_⟩
    simp
  have found : ∀ before, atLineStart before = true →
      Form.block.recogniser before (lead ++ body ++ [')'] ++ (left ++ '\n' :: rest)) =
        some ⟨lead, body, [')']⟩ := by
    intro before start
    have own := block_found start margin.indent gap inside (left ++ '\n' :: rest)
    simpa [lead, Form.recogniser] using own
  have size : Hit.size ⟨lead, body, [')']⟩ = (lead ++ body ++ [')']).length := by
    simp [Hit.size, Nat.add_assoc]
  have searched := Form.search_statement start margin found size (by decide) calm
  have shape : (Declaration.block margin gap after items last tail).text ++ rest =
      margin.above ++ (lead ++ body ++ [')'] ++ (left ++ '\n' :: rest)) := by
    simp [text]
  refine ⟨(p.advance (margin.above ++ lead), body), ?_, ?_⟩
  · rw [shape, text]
    exact searched
  · have unquoted : '"' ∉ after.1 ++ ['\n'] := by
      simp [Form.not_mem_gap (by decide : isGap '"' = false) after.2]
    have front : body = (after.1 ++ ['\n']) ++ inner.takeWhile (· != ')') := by
      simp [body]
    rw [front, search_unquoted _ unquoted, search_entries, Declaration.spots]
    simp [lead, Declaration.opening, Declaration.items, Margin.text, ← Place.advance_append]

/-- What a form finds in a declaration that begins at a place. -/
def Form.finds (form : Form) (piece : Place × Declaration) : List (Place × List Char) :=
  if form = piece.2.form then Declaration.spots piece else []

theorem Form.targets_search {form : Form} {p : Place} (start : atLineStart p.before = true)
    (declaration : Declaration) (rest : List Char) :
    form.targets (search form.recogniser 0 p (declaration.text ++ rest)) =
      form.finds (p, declaration) ++
        form.targets (search form.recogniser 0 (p.advance declaration.text) rest) := by
  by_cases own : form = declaration.form
  · subst own
    rw [finds, if_pos rfl]
    cases declaration with
    | single margin space entry => exact search_single start margin space entry rest
    | block margin gap after items last tail =>
      obtain ⟨spot, found, inside⟩ := search_block start margin gap after items last tail rest
      rw [← inside]
      exact congrArg block.targets found
  · rw [finds, if_neg own, search_other own, List.nil_append]

theorem before_advance_declaration (p : Place) (declaration : Declaration) :
    (p.advance declaration.text).before = some '\n' := by
  obtain ⟨text, shape⟩ : ∃ text, declaration.text = text ++ ['\n'] := by
    cases declaration with
    | single margin space entry =>
      exact ⟨margin.text ++ (importWord ++ space.1) ++ entry.text, by
        simp [Declaration.text, Declaration.opening, Declaration.items, Declaration.closing,
          Item.text, Margin.text, Margin.above]⟩
    | block margin gap after items last tail =>
      exact ⟨(Declaration.block margin gap after items last tail).opening ++
        (items.flatMap Item.text ++ (last.text ++ ')' :: tail.1)), by
          simp [Declaration.text, Declaration.items, Declaration.closing]⟩
  rw [shape, Place.before_advance_concat]

theorem Form.targets_declarations (form : Form) (declarations : List Declaration) {p : Place}
    (start : atLineStart p.before = true) :
    form.targets (search form.recogniser 0 p (declarations.flatMap Declaration.text)) =
      (placed Declaration.text p declarations).flatMap form.finds := by
  induction declarations generalizing p with
  | nil => cases form <;> rfl
  | cons declaration later ih =>
    have next : atLineStart (p.advance declaration.text).before = true := by
      rw [before_advance_declaration]
      decide
    rw [List.flatMap_cons, targets_search start, ih next, placed, List.flatMap_cons]

theorem Form.search_package (form : Form) (package : PackageName) (rest : List Char) :
    search form.recogniser 0 .start (packageWord ++ package.1 ++ '\n' :: rest) =
      search form.recogniser 0 (Place.start.advance (packageWord ++ package.1 ++ ['\n'])) rest := by
  have calm : form.Calm (packageWord ++ package.1) :=
    calm_of_feedless (by simp [packageWord, package.2])
  exact calm.search (fun _ => form.opens_cons (by decide) (by decide) _) rest

def forms : List (Form × Kind) :=
  [(.single, .import), (.block, .import)]

def Declaration.findings (piece : Place × Declaration) : List (Place × List Char × Kind) :=
  (Declaration.spots piece).map fun spot => (spot.1, spot.2, .import)

theorem flatMap_finds (piece : Place × Declaration) :
    (forms.flatMap fun form => (form.1.finds piece).map fun spot => (spot.1, spot.2, form.2)) =
      Declaration.findings piece := by
  obtain ⟨p, declaration⟩ := piece
  cases declaration <;> simp [forms, Form.finds, Declaration.form, Declaration.findings]

theorem found_sourceText (package : PackageName) (declarations : List Declaration) :
    Extract.found .go (sourceText package declarations).toList = forms.map fun form =>
      ((placed Declaration.text (Place.start.advance (packageWord ++ package.1 ++ ['\n']))
        declarations).flatMap form.1.finds, form.2) := by
  have searched : Extract.found .go (sourceText package declarations).toList =
      forms.map fun form => (form.1.targets (search form.1.recogniser 0 .start
        (sourceText package declarations).toList), form.2) := rfl
  have start : atLineStart (Place.start.advance (packageWord ++ package.1 ++ ['\n'])).before =
      true := by
    rw [Place.before_advance_concat]
    decide
  rw [searched, sourceText, String.toList_ofList]
  refine List.map_congr_left fun form _ => ?_
  rw [form.1.search_package, form.1.targets_declarations _ start]

theorem map_spots (items : List Item) (p : Place) :
    ((placed Item.text p items).map Item.spot).map
        (fun spot => Extract.toReference (spot.1, spot.2, .import)) =
      itemReferences p.line items := by
  induction items generalizing p with
  | nil => rfl
  | cons item later ih =>
    have line : (Item.spot (p, item)).1.line = p.line + item.lead.count '\n' := by
      rw [Item.spot, Place.line_advance, List.count_append]
      rfl
    rw [placed, List.map_cons, List.map_cons, ih, itemReferences, Place.line_advance, ← line]
    rfl

theorem map_findings (declarations : List Declaration) (p : Place) :
    ((placed Declaration.text p declarations).flatMap Declaration.findings).map
      Extract.toReference = reported p.line declarations := by
  induction declarations generalizing p with
  | nil => rfl
  | cons declaration later ih =>
    have here : (Declaration.findings (p, declaration)).map Extract.toReference =
        itemReferences (p.line + declaration.opening.count '\n') (readable declaration.items) := by
      rw [← Place.line_advance, ← map_spots, Declaration.findings, Declaration.spots, List.map_map]
      rfl
    rw [placed, List.flatMap_cons, List.map_append, ih, here, Place.line_advance]
    rfl

theorem ascending_placed (p : Place) (items : List Item) :
    Extract.Ascending p.offset (p.offset + (items.flatMap Item.text).length)
      ((placed Item.text p items).flatMap fun piece =>
        [((Item.spot piece).1, (Item.spot piece).2, .import)]) := by
  have own : ∀ piece ∈ placed Item.text p items, Extract.Ascending piece.1.offset
      (piece.1.offset + (Item.text piece.2).length)
      [((Item.spot piece).1, (Item.spot piece).2, .import)] := by
    intro piece _
    refine ⟨List.pairwise_singleton _ _, ?_⟩
    simp only [List.forall_mem_singleton, Item.spot, Place.offset_advance, Item.text_eq,
      Entry.quoted, List.length_append, List.length_cons]
    omega
  refine ⟨Extract.pairwise_flatMap_placed _ _ _ _ own, ?_⟩
  intro spot member
  obtain ⟨piece, known, inside⟩ := List.mem_flatMap.1 member
  have bounds := (own piece known).inside spot inside
  have low := le_offset_of_mem_placed Item.text known
  have high := offset_add_le_of_mem_placed Item.text known
  omega

theorem ascending_findings (piece : Place × Declaration) :
    Extract.Ascending piece.1.offset (piece.1.offset + piece.2.text.length)
      (Declaration.findings piece) := by
  obtain ⟨p, declaration⟩ := piece
  obtain ⟨unread, shape⟩ := prefix_readable declaration.items
  have inner := ascending_placed (p.advance declaration.opening) (readable declaration.items)
  have findings : Declaration.findings (p, declaration) =
      (placed Item.text (p.advance declaration.opening) (readable declaration.items)).flatMap
        fun piece => [((Item.spot piece).1, (Item.spot piece).2, .import)] := by
    rw [Declaration.findings, Declaration.spots, List.map_map, List.map_eq_flatMap]
    rfl
  have length : (declaration.items.flatMap Item.text).length =
      ((readable declaration.items).flatMap Item.text).length +
        (unread.flatMap Item.text).length := by
    rw [← List.length_append, ← List.flatMap_append, shape]
  rw [findings]
  refine ⟨inner.ordered, fun spot member => ?_⟩
  have bounds := inner.inside spot member
  rw [Place.offset_advance] at bounds
  simp only [Declaration.text, List.length_append]
  omega

/-- What the forms find is what the declarations report. -/
theorem merge_declarations (p : Place) (declarations : List Declaration) :
    Extract.merge (forms.map fun form =>
        ((placed Declaration.text p declarations).flatMap form.1.finds, form.2)) =
      reported p.line declarations := by
  rw [Extract.merge_placed _ _ _ forms Form.finds Declaration.findings
    (fun piece _ => .of_eq (flatMap_finds piece)) fun piece _ => ascending_findings piece]
  exact map_findings declarations p

end Statement.Go

namespace Extract

open Statement Statement.Go

theorem references_eq_reported (package : PackageName) (declarations : List Declaration) :
    references .go (sourceText package declarations) = reported 2 declarations := by
  have line : (Place.start.advance (packageWord ++ package.1 ++ ['\n'])).line = 2 := by
    rw [Place.line_advance, List.count_append, List.count_append, List.count_eq_zero.2 package.2]
    rfl
  rw [references, found_sourceText, merge_declarations, line]

/-- The references of a source text are those of its readable items, in their order, each on the
line of its target. They are those of all items as long as no comment in a block has a closing
parenthesis, the comment of its last item left aside. -/
theorem references_sourceText (package : PackageName) (declarations : List Declaration) :
    references .go (sourceText package declarations) = reported 2 declarations ∧
      (references .go (sourceText package declarations) = written 2 declarations ↔
        ∀ declaration ∈ declarations, ∀ item ∈ declaration.items.dropLast,
          ')' ∉ item.entry.tail.1) := by
  refine ⟨references_eq_reported package declarations, ?_⟩
  rw [references_eq_reported, reported_eq_written_iff]
  exact forall₂_congr fun declaration _ => readable_eq_self_iff

/-- A block ends at the first closing parenthesis, also where that stands in a comment. -/
theorem references_sourceText_parenthesis :
    ¬ ∀ (package : PackageName) (declarations : List Declaration),
      references .go (sourceText package declarations) = written 2 declarations := by
  intro all
  have both := all mainPackage [commentedBlock]
  rw [references_eq_reported] at both
  exact absurd both (by decide)

end Extract

end FileGraph
