import FileGraph.FileTree
import FileGraph.Path.Lexical
import Mathlib.Data.List.Basic
import Mathlib.Data.List.Induction
import Mathlib.Data.List.TakeWhile

/-! # Paths that are written from the top

`Location.toPath` writes names behind a leading slash. This module says what the operations on paths
make of such a path.

* `Text.splitOn_eq`, `Text.joinWith_eq`: cutting and joining are those of lists.
* `Path.IsSegment`, `Path.IsName`: texts that stand between two slashes, and those of them that are
  neither `.` nor `..`.
* `Path.components_toPath`, `Path.normalize_toPath`: the meaning of a written location.
* `Path.join_toPath`, `Path.parent?_toPath`, `Path.fileName?_toPath`: one name further, one name
  back, and the last name.
* `Path.cutAtDot_append`: the ending of a name.
* `Path.relativeId?_rooted`: what lies below a folder is seen from there under its own names.
-/

namespace FileGraph

namespace Text

theorem splitOn_eq (sep : Char) (text : List Char) : splitOn sep text = text.splitOn sep := by
  induction text with
  | nil => rfl
  | cons c rest ih =>
      rw [splitOn, List.splitOn_cons_eq_if_modifyHead, ih]
      simp only [beq_iff_eq]
      cases cut : rest.splitOn sep with
      | nil => exact absurd cut (List.splitOn_ne_nil sep rest)
      | cons piece later => rfl

theorem joinWith_eq (sep : Char) (pieces : List (List Char)) :
    joinWith sep pieces = [sep].intercalate pieces := by
  induction pieces with
  | nil => rfl
  | cons piece later ih =>
      cases later with
      | nil => simp [joinWith]
      | cons second later => simp [joinWith, ih]

theorem mem_intercalate {sep c : Char} {pieces : List (List Char)}
    (member : c ∈ [sep].intercalate pieces) : c = sep ∨ ∃ piece ∈ pieces, c ∈ piece := by
  induction pieces with
  | nil => cases member
  | cons piece later ih =>
      cases later with
      | nil => exact .inr ⟨piece, List.mem_cons_self, by simpa using member⟩
      | cons second later =>
          rw [List.intercalate_cons_cons, List.mem_append, List.mem_append] at member
          obtain (own | between) | behind := member
          · exact .inr ⟨piece, List.mem_cons_self, own⟩
          · exact .inl (List.mem_singleton.1 between)
          · exact (ih behind).imp_right fun ⟨piece, found, inside⟩ =>
              ⟨piece, List.mem_cons_of_mem _ found, inside⟩

end Text

namespace Path

/-- A text between two slashes of a path. -/
structure IsSegment (text : String) : Prop where
  filled : text.toList ≠ []
  slashless : '/' ∉ text.toList

/-- A text that names something in a path. -/
structure IsName (text : String) : Prop extends IsSegment text where
  ne_here : text ≠ "."
  ne_up : text ≠ ".."

theorem isName_iff {text : String} :
    IsName text ↔ (text.toList ≠ [] ∧ '/' ∉ text.toList) ∧ text ≠ "." ∧ text ≠ ".." := by
  constructor
  · intro isName
    exact ⟨⟨isName.filled, isName.slashless⟩, isName.ne_here, isName.ne_up⟩
  · rintro ⟨⟨filled, slashless⟩, ne_here, ne_up⟩
    exact ⟨⟨filled, slashless⟩, ne_here, ne_up⟩

instance : DecidablePred IsName := fun _ => decidable_of_iff _ isName_iff.symm

theorem IsSegment.append {text ending : String} (isSegment : IsSegment text)
    (slashless : '/' ∉ ending.toList) : IsSegment (text ++ ending) := by
  constructor
  · rw [String.toList_append]
    exact List.append_ne_nil_of_left_ne_nil isSegment.filled _
  · rw [String.toList_append, List.mem_append, not_or]
    exact ⟨isSegment.slashless, slashless⟩

theorem isSegment_here : IsSegment "." :=
  ⟨by decide, by decide⟩

variable {location : Location} {name text : String}

/-! ## The texts of locations -/

theorem toList_toPath (location : Location) :
    location.toPath.text.toList = '/' :: ['/'].intercalate (location.map (·.toList)) := by
  rw [Location.toPath, String.toList_append, String.toList_intercalate]
  rfl

theorem mem_toPath {c : Char} (member : c ∈ location.toPath.text.toList) :
    c = '/' ∨ ∃ s ∈ location, c ∈ s.toList := by
  rw [toList_toPath, List.mem_cons] at member
  cases member with
  | inl slash => exact .inl slash
  | inr inside =>
      cases Text.mem_intercalate inside with
      | inl slash => exact .inl slash
      | inr own =>
          obtain ⟨piece, found, inside⟩ := own
          obtain ⟨s, given, rfl⟩ := List.mem_map.1 found
          exact .inr ⟨s, given, inside⟩

theorem text_toPath_append (nonempty : location ≠ []) (text : String) :
    (location ++ [text]).toPath.text = location.toPath.text ++ "/" ++ text := by
  rw [Location.toPath, Location.toPath,
    String.intercalate_append_of_ne_nil nonempty (List.cons_ne_nil _ _), String.intercalate_singleton,
    ← String.append_assoc, ← String.append_assoc]

theorem exists_toList_toPath_append (location : Location) (text : String) :
    ∃ front, (location ++ [text]).toPath.text.toList = front ++ text.toList := by
  by_cases top : location = []
  · subst top
    exact ⟨['/'], by simp [toList_toPath]⟩
  · exact ⟨_, by rw [text_toPath_append top, String.toList_append]⟩

theorem getLast?_toPath (segments : ∀ s ∈ location, IsSegment s) :
    location.toPath.text.toList.getLast? = some '/' ↔ location = [] := by
  induction location using List.reverseRecOn with
  | nil => exact ⟨fun _ => rfl, fun _ => rfl⟩
  | append_singleton before last _ =>
      obtain ⟨filled, slashless⟩ := segments last (by simp)
      obtain ⟨inner, c, shape⟩ := (List.eq_nil_or_concat' last.toList).resolve_left filled
      have apart : c ≠ '/' := by
        rintro rfl
        exact slashless (shape ▸ by simp)
      obtain ⟨front, written⟩ := exists_toList_toPath_append before last
      rw [written, shape, ← List.append_assoc, List.getLast?_concat]
      simp [apart]

/-! ## The meaning of locations -/

theorem splitOn_joined (slashless : ∀ s ∈ location, '/' ∉ s.toList) (nonempty : location ≠ []) :
    Text.splitOn '/' (['/'].intercalate (location.map (·.toList))) = location.map (·.toList) := by
  rw [Text.splitOn_eq]
  refine List.splitOn_intercalate '/' ?_ (by simpa using nonempty)
  intro segment member
  obtain ⟨s, given, rfl⟩ := List.mem_map.1 member
  exact slashless s given

theorem layout_toPath (slashless : ∀ s ∈ location, '/' ∉ s.toList) (nonempty : location ≠ []) :
    location.toPath.layout = (.root, location.map (·.toList)) := by
  rw [layout, toList_toPath]
  exact congrArg _ (splitOn_joined slashless nonempty)

theorem components_toPath (slashless : ∀ s ∈ location, '/' ∉ s.toList) :
    location.toPath.components =
      .root :: location.filterMap fun segment => componentOf? segment.toList := by
  by_cases empty : location = []
  · subst empty
    rfl
  · rw [components, layout_toPath slashless empty, List.filterMap_map]
    rfl

theorem IsName.isIdle_eq (isName : IsName name) : isIdle name.toList = false := by
  have apart : name.toList ≠ ['.'] := fun same =>
    isName.ne_here (String.toList_inj.1 (same.trans (by decide)))
  simp [isIdle, isName.filled, apart]

theorem IsName.componentOf?_eq (isName : IsName name) :
    componentOf? name.toList = some (.name name) := by
  have apart : name.toList ≠ ['.', '.'] := fun same =>
    isName.ne_up (String.toList_inj.1 (same.trans (by decide)))
  simp [componentOf?, isName.isIdle_eq, apart]

theorem filterMap_componentOf? (names : ∀ s ∈ location, IsName s) :
    (location.filterMap fun segment => componentOf? segment.toList) = location.map .name := by
  rw [← List.filterMap_eq_map]
  exact List.filterMap_congr fun s given => (names s given).componentOf?_eq

theorem foldl_push_name (before names : List String) :
    (names.map Component.name).foldl Lexical.push (.rooted before) = .rooted (before ++ names) := by
  induction names generalizing before with
  | nil => simp
  | cons name names ih => simp [Lexical.push, ih]

theorem normalize_eq_rooted {p : Path} {names : List String}
    (meaning : p.components = .root :: names.map .name) : p.normalize = .rooted names := by
  rw [normalize, meaning]
  exact foldl_push_name [] names

theorem names_foldl_push (lexical : Lexical) (names : List String) :
    ((names.map .name).foldl Lexical.push lexical).names = lexical.names ++ names := by
  induction names generalizing lexical with
  | nil => simp
  | cons name later ih =>
    rw [List.map_cons, List.foldl_cons, ih]
    cases lexical with
    | rooted front => simp [Lexical.push, Lexical.names]
    | loose climbs front => simp [Lexical.push, Lexical.names]

/-- Of a folder and what is below it only the folder is where the folder is. -/
theorem normalize_eq_normalize_iff {p base : Path} {names : List String}
    (below : p.components = base.components ++ names.map .name) :
    p.normalize = base.normalize ↔ names = [] := by
  rw [normalize, below, List.foldl_append, ← normalize]
  constructor
  · intro same
    have all := names_foldl_push base.normalize names
    rw [same] at all
    exact List.self_eq_append_right.1 all
  · rintro rfl
    rfl

theorem normalize_toPath (names : ∀ s ∈ location, IsName s) :
    location.toPath.normalize = .rooted location := by
  apply normalize_eq_rooted
  rw [components_toPath fun s given => (names s given).slashless, filterMap_componentOf? names]

/-! ## One name further and one name back -/

theorem join_toPath (segments : ∀ s ∈ location, IsSegment s)
    (relative : text.toList.head? ≠ some '/') :
    location.toPath.join text = (location ++ [text]).toPath := by
  have whole : location.toPath.text.isEmpty = false := by
    rw [String.isEmpty_eq_false_iff]
    intro empty
    have texts := toList_toPath location
    rw [empty] at texts
    cases texts
  have apart : (Path.mk text).isAbsolute = false := by simpa [isAbsolute] using relative
  rw [join, apart, whole]
  by_cases top : location = []
  · subst top
    rfl
  · -- Only the topmost path ends in a slash, so one is put in between.
    have ends := mt (getLast?_toPath segments).1 top
    simp only [Bool.or_self, Bool.false_eq_true, ↓reduceIte, beq_iff_eq, ends]
    rw [← text_toPath_append top]

theorem forall_mem_append_name (names : ∀ s ∈ location, IsName s) (isName : IsName name) :
    ∀ s ∈ location ++ [name], IsName s :=
  List.forall_mem_append.2 ⟨names, List.forall_mem_singleton.2 isName⟩

theorem trimEnd_names (names : ∀ s ∈ location, IsName s) :
    trimEnd (location.map (·.toList)) = location.map (·.toList) := by
  have busy : ∀ segment ∈ location.map (·.toList), isIdle segment = false := by
    intro segment member
    obtain ⟨s, given, rfl⟩ := List.mem_map.1 member
    exact (names s given).isIdle_eq
  rw [trimEnd, List.dropWhile_eq_self_iff.2, List.reverse_reverse]
  intro more
  rw [busy _ (List.mem_reverse.1 (List.getElem_mem more))]
  exact Bool.false_ne_true

theorem parent?_toPath (names : ∀ s ∈ location, IsName s) (isName : IsName name) :
    (location ++ [name]).toPath.parent? = some location.toPath := by
  have all := forall_mem_append_name names isName
  rw [parent?, layout_toPath (fun s given => (all s given).slashless) (by simp)]
  simp only [trimEnd_names all]
  simp only [List.map_append, List.map_singleton, List.reverse_append, List.reverse_singleton,
    List.singleton_append, List.reverse_reverse, trimEnd_names names, ofLayout]
  rw [Option.some.injEq, Path.mk.injEq, ← String.toList_inj, String.toList_ofList, Text.joinWith_eq,
    toList_toPath]

theorem fileName?_toPath (names : ∀ s ∈ location, IsName s) (isName : IsName name) :
    (location ++ [name]).toPath.fileName? = some name := by
  have all := forall_mem_append_name names isName
  rw [fileName?, components_toPath fun s given => (all s given).slashless,
    filterMap_componentOf? all, List.map_append, List.map_singleton, ← List.cons_append,
    List.getLast?_concat]

theorem cutAtDot_append {stem ending : String} (filled : stem.toList ≠ [])
    (dotless : '.' ∉ ending.toList) : cutAtDot (stem ++ "." ++ ending) = (stem, some ending) := by
  -- The last dot is looked for from the end, where it is the first one.
  have shape : (stem ++ "." ++ ending).toList.reverse =
      ending.toList.reverse ++ '.' :: stem.toList.reverse := by simp
  have taken : (ending.toList.reverse ++ '.' :: stem.toList.reverse).takeWhile (· != '.') =
      ending.toList.reverse := by
    rw [List.takeWhile_append_of_pos]
    · simp
    · intro c member
      have apart : c ≠ '.' := by
        rintro rfl
        exact dotless (List.mem_reverse.1 member)
      simpa using apart
  rw [cutAtDot, shape, taken]
  obtain ⟨c, before, reversed⟩ := List.exists_cons_of_ne_nil (mt List.reverse_eq_nil_iff.1 filled)
  have back : (c :: before).reverse = stem.toList := by rw [← reversed, List.reverse_reverse]
  simp [reversed, back]

/-! ## Paths seen from a folder -/

theorem behind?_append (above rest : List Component) :
    behind? above (above ++ rest) = some rest := by
  induction above with
  | nil => rfl
  | cons a above ih => simp [behind?, ih]

theorem relativeId?_rooted {names : List String} (location : List String) (nonempty : names ≠ []) :
    relativeId? (Lexical.rooted location).components
      (Lexical.rooted (location ++ names)).components = some ("/".intercalate names) := by
  have further : (Lexical.rooted (location ++ names)).components =
      (Lexical.rooted location).components ++ names.map .name := by
    simp [Lexical.components]
  obtain ⟨first, later, rfl⟩ := List.exists_cons_of_ne_nil nonempty
  have texts : ((first :: later).map Component.name).map Component.text = first :: later := by
    simp [Function.comp_def, Component.text]
  rw [relativeId?, further, behind?_append, List.map_cons]
  dsimp only
  rw [← List.map_cons, texts]

end Path

end FileGraph
