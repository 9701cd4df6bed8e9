import FileGraph.Proofs.Path

/-! # What joined paths say

Joining puts texts behind one another, with a slash in between where none is written yet.  Either
way the components of the first path come first, so that a path below a folder says what the path
of the folder says and then the names.

* `Path.join_append`, `Path.getLast?_join`: the text of a joined path ends in what is joined.
* `Path.components_of_append`: what stands behind a slash adds components of its own.
* `Path.components_withSuffix`, `Path.components_join`, `Path.components_foldl_join`: what is put
  behind a slash, and names that are joined, come last.
* `Path.fileName?_eq_some`, `Path.extension?_foldl_join`: the parts of a path that ends in a name.
* `Path.isAbsolute_join`, `Path.isAbsolute_withSuffix`, `Path.isAbsolute_parent?`: what is made of an
  absolute path is absolute.
* `Path.normalize_foldl_join`: the normal form of a path below another one.
-/

namespace FileGraph

theorem Text.splitOn_append_cons (sep : Char) (before behind : List Char) :
    splitOn sep (before ++ sep :: behind) = splitOn sep before ++ splitOn sep behind := by
  simp only [splitOn_eq, List.splitOn_append_cons_self]

namespace Path

open Text (splitOn)

variable {p q base : Path} {name text : String} {names : List String}

/-! ## Components -/

theorem components_of_slash {rest : List Char} (written : p.text.toList = '/' :: rest) :
    p.components = .root :: (splitOn '/' rest).filterMap componentOf? := by
  rw [components, layout, written]
  rfl

theorem components_of_ne_slash (apart : p.text.toList.head? ≠ some '/') :
    p.components = match splitOn '/' p.text.toList with
      | ['.'] :: later => .here :: later.filterMap componentOf?
      | segments => segments.filterMap componentOf? := by
  unfold components layout
  split
  next rest written => simp [written] at apart
  next => split <;> simp_all [Start.components]

theorem components_of_append {more : List Char} (filled : p.text.toList ≠ [])
    (written : q.text.toList = p.text.toList ++ '/' :: more) :
    q.components = p.components ++ (splitOn '/' more).filterMap componentOf? := by
  obtain ⟨c, rest, shape⟩ := List.exists_cons_of_ne_nil filled
  by_cases slash : c = '/'
  · subst slash
    rw [shape, List.cons_append] at written
    rw [components_of_slash written, components_of_slash shape, Text.splitOn_append_cons,
      List.filterMap_append, List.cons_append]
  · have apart : p.text.toList.head? ≠ some '/' := by simpa [shape] using slash
    have apart' : q.text.toList.head? ≠ some '/' := by simpa [written, shape] using slash
    rw [components_of_ne_slash apart, components_of_ne_slash apart', written,
      Text.splitOn_append_cons]
    -- The first segment is one of the first path, so both paths begin alike.
    cases cut : splitOn '/' p.text.toList with
    | nil => exact absurd cut (Text.splitOn_ne_nil _ _)
    | cons first later =>
        by_cases dot : first = ['.']
        · subst dot
          exact congrArg _ List.filterMap_append
        · simp only [List.cons_append, List.cons.injEq, dot, false_and, imp_self, implies_true]
          exact List.filterMap_append (l := first :: later)

theorem toList_text_join (relative : text.toList.head? ≠ some '/') (filled : base.text ≠ "") :
    (base.join text).text.toList =
      if base.text.toList.getLast? = some '/' then base.text.toList ++ text.toList
      else base.text.toList ++ '/' :: text.toList := by
  have apart : (Path.mk text).isAbsolute = false := by simpa [isAbsolute] using relative
  have whole : base.text.isEmpty = false := by simpa using filled
  rw [join, apart, whole]
  simp only [Bool.or_self, Bool.false_eq_true, ↓reduceIte, beq_iff_eq]
  split <;> simp

theorem join_append {front name : String} (filled : front ≠ "") (base : Path) :
    base.join (front ++ name) = (base.join front).withSuffix name := by
  have alike : (Path.mk (front ++ name)).isAbsolute = (Path.mk front).isAbsolute := by
    obtain ⟨c, later, shape⟩ := List.exists_cons_of_ne_nil (mt String.toList_eq_nil_iff.1 filled)
    simp [isAbsolute, shape]
  unfold join withSuffix
  rw [alike]
  split
  next => rfl
  next => split <;> simp [String.append_assoc]

theorem getLast?_join {text : String} (filled : text ≠ "") (base : Path) :
    (base.join text).text.toList.getLast? = text.toList.getLast? := by
  obtain ⟨front, c, shape⟩ :=
    (List.eq_nil_or_concat' text.toList).resolve_left (mt String.toList_eq_nil_iff.1 filled)
  have behind : ∀ more : String, (more ++ text).toList.getLast? = text.toList.getLast? := by
    intro more
    rw [String.toList_append, shape, ← List.append_assoc, List.getLast?_concat, List.getLast?_concat]
  unfold join
  split
  next => rfl
  next => split <;> exact behind _

theorem IsName.head?_ne (isName : IsName name) : name.toList.head? ≠ some '/' := fun first =>
  isName.slashless (List.mem_of_mem_head? first)

theorem text_join_ne (isName : IsName name) (filled : base.text ≠ "") :
    (base.join name).text ≠ "" := by
  rw [ne_eq, ← String.toList_eq_nil_iff, toList_text_join isName.head?_ne filled]
  have filled' : base.text.toList ≠ [] := by simpa using filled
  split <;> simp [filled']

/-- A text behind a slash is a segment of its own. -/
theorem components_withSuffix (ends : p.text.toList.getLast? = some '/')
    (slashless : '/' ∉ text.toList) :
    (p.withSuffix text).components = p.components ++ (componentOf? text.toList).toList := by
  have own : (splitOn '/' text.toList).filterMap componentOf? =
      (componentOf? text.toList).toList := by
    rw [Text.splitOn_eq, List.splitOn_eq_singleton slashless, List.filterMap_cons]
    cases componentOf? text.toList <;> rfl
  obtain ⟨front, shape⟩ := List.getLast?_eq_some_iff.1 ends
  have written : (p.withSuffix text).text.toList = front ++ '/' :: text.toList := by
    simp [withSuffix, shape]
  by_cases top : front = []
  · subst top
    rw [components_of_slash written, components_of_slash shape, own]
    rfl
  · have above : (Path.mk (String.ofList front)).text.toList = front := by simp
    rw [← above] at written shape top
    rw [components_of_append top written, components_of_append top shape, own, List.append_assoc]
    rfl

theorem exists_join_eq_withSuffix (isName : IsName name) (filled : base.text ≠ "") :
    ∃ above : Path, above.text.toList.getLast? = some '/' ∧ base.join name = above.withSuffix name ∧
      above.components = base.components := by
  have apart : (Path.mk name).isAbsolute = false := by simpa [isAbsolute] using isName.head?_ne
  have whole : base.text.isEmpty = false := by simpa using filled
  by_cases ends : base.text.toList.getLast? = some '/'
  · refine ⟨base, ends, ?_, rfl⟩
    simp [join, apart, whole, ends, withSuffix]
  · refine ⟨base.withSuffix "/", by simp [withSuffix], ?_, ?_⟩
    · simp [join, apart, whole, ends, withSuffix]
    · have filled' : base.text.toList ≠ [] := by simpa using filled
      rw [components_of_append filled' (show _ = _ ++ '/' :: [] by simp [withSuffix])]
      exact List.append_nil _

theorem components_join (isName : IsName name) (filled : base.text ≠ "") :
    (base.join name).components = base.components ++ [.name name] := by
  obtain ⟨above, ends, shape, same⟩ := exists_join_eq_withSuffix isName filled
  rw [shape, components_withSuffix ends isName.slashless, isName.componentOf?_eq, same]
  rfl

theorem components_foldl_join (isName : ∀ name ∈ names, IsName name) (filled : base.text ≠ "") :
    (names.foldl join base).components = base.components ++ names.map .name := by
  induction names generalizing base with
  | nil => simp
  | cons name later ih =>
      obtain ⟨first, others⟩ := List.forall_mem_cons.1 isName
      rw [List.foldl_cons, ih others (text_join_ne first filled), components_join first filled,
        List.append_assoc, List.map_cons, List.singleton_append]

theorem components_mk (isName : IsName name) : (Path.mk name).components = [.name name] := by
  have cut : splitOn '/' (Path.mk name).text.toList = [name.toList] := by
    rw [Text.splitOn_eq, List.splitOn_eq_singleton isName.slashless]
  have apart : name.toList ≠ ['.'] := fun same =>
    isName.ne_here (String.toList_inj.1 (same.trans (by decide)))
  rw [components_of_ne_slash isName.head?_ne, cut]
  simp [isName.componentOf?_eq, apart]

theorem components_foldl_join_concat (isName : ∀ n ∈ names ++ [name], IsName n)
    (filled : base.text ≠ "") :
    ((names ++ [name]).foldl join base).components =
      (base.components ++ names.map .name) ++ [.name name] := by
  rw [components_foldl_join isName filled, List.map_append, List.map_singleton, List.append_assoc]

/-! ## Parts of paths that end in a name -/

variable {front : List Component}

theorem fileName?_eq_some (ends : p.components = front ++ [.name name]) :
    p.fileName? = some name := by
  rw [fileName?, ends, List.getLast?_concat]

theorem extension?_foldl_join (isName : ∀ n ∈ names ++ [name], IsName n) (filled : base.text ≠ "") :
    ((names ++ [name]).foldl join base).extension? = (Path.mk name).extension? := by
  have ends := components_foldl_join_concat isName filled
  have alone : (Path.mk name).components = [] ++ [.name name] :=
    components_mk (isName name (by simp))
  rw [extension?, extension?, fileName?_eq_some ends, fileName?_eq_some alone]

/-! ## Absolute paths -/

theorem isAbsolute_iff : p.isAbsolute = true ↔ ∃ rest, p.text.toList = '/' :: rest := by
  rw [isAbsolute, beq_iff_eq, List.head?_eq_some_iff]

theorem text_ne_of_isAbsolute (absolute : p.isAbsolute = true) : p.text ≠ "" := by
  obtain ⟨rest, written⟩ := isAbsolute_iff.1 absolute
  intro empty
  rw [empty] at written
  cases written

theorem isAbsolute_join (absolute : base.isAbsolute = true) (text : String) :
    (base.join text).isAbsolute = true := by
  by_cases own : (Path.mk text).isAbsolute = true
  · rw [join, own]
    exact own
  · obtain ⟨rest, written⟩ := isAbsolute_iff.1 absolute
    have relative : text.toList.head? ≠ some '/' := by simpa [isAbsolute] using own
    rw [isAbsolute_iff, toList_text_join relative (text_ne_of_isAbsolute absolute), written]
    split
    next => exact ⟨_, rfl⟩
    next => exact ⟨_, rfl⟩

theorem isAbsolute_withSuffix (absolute : base.isAbsolute = true) (suffix : String) :
    (base.withSuffix suffix).isAbsolute = true := by
  obtain ⟨rest, written⟩ := isAbsolute_iff.1 absolute
  exact isAbsolute_iff.2 ⟨rest ++ suffix.toList, by simp [withSuffix, written]⟩

theorem isAbsolute_foldl_join (absolute : base.isAbsolute = true) (names : List String) :
    (names.foldl join base).isAbsolute = true := by
  induction names generalizing base with
  | nil => exact absolute
  | cons name later ih => exact ih (isAbsolute_join absolute name)

theorem isAbsolute_parent? (absolute : p.isAbsolute = true) (above : p.parent? = some q) :
    q.isAbsolute = true := by
  obtain ⟨rest, written⟩ := isAbsolute_iff.1 absolute
  have rooted : p.layout = (.root, splitOn '/' rest) := by
    rw [layout, written]
    rfl
  unfold parent? at above
  rw [rooted] at above
  dsimp only at above
  split at above
  next =>
    obtain rfl := Option.some.inj above
    exact isAbsolute_iff.2 ⟨_, String.toList_ofList⟩
  next same => cases same
  next => cases above

theorem isAbsolute_toPath (names : List String) : (Lexical.rooted names).toPath.isAbsolute = true :=
  isAbsolute_iff.2 ⟨_, by rw [Lexical.toPath, String.toList_append]; rfl⟩

theorem normalize_foldl_join {location : Location} (isName : ∀ n ∈ names, IsName n)
    (filled : base.text ≠ "") (normal : base.normalize = .rooted location) :
    (names.foldl join base).normalize = .rooted (location ++ names) := by
  rw [normalize, components_foldl_join isName filled, List.foldl_append, ← normalize, normal]
  exact foldl_push_name location names

end Path

end FileGraph
