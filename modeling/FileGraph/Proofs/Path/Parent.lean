import FileGraph.Proofs.Path.Join

/-! # The folder that holds what a path names

* `Path.components_ofLayout`: what a path says that is put together from segments.
* `Path.exists_parent?_components`, `Path.exists_parent?_foldl_join`: a path that ends in a name has a
  parent, which says all that the path says in front of the name.
-/

namespace FileGraph.Path

open Text (splitOn joinWith)

variable {p base : Path} {name : String} {names : List String} {front : List Component}

/-! ## Segments -/

theorem trimEnd_append_idle (segments : List (List Char)) :
    ∃ idle, (∀ segment ∈ idle, isIdle segment = true) ∧ segments = trimEnd segments ++ idle := by
  refine ⟨(segments.reverse.takeWhile isIdle).reverse, fun segment member => ?_, ?_⟩
  · exact List.mem_takeWhile_imp (List.mem_reverse.1 member)
  · rw [trimEnd, ← List.reverse_append, List.takeWhile_append_dropWhile, List.reverse_reverse]

theorem filterMap_idle {segments : List (List Char)}
    (idle : ∀ segment ∈ segments, isIdle segment = true) :
    segments.filterMap componentOf? = [] := by
  rw [List.filterMap_eq_nil_iff]
  intro segment member
  rw [componentOf?, if_pos (idle segment member)]

theorem filterMap_trimEnd (segments : List (List Char)) :
    (trimEnd segments).filterMap componentOf? = segments.filterMap componentOf? := by
  obtain ⟨idle, each, shape⟩ := trimEnd_append_idle segments
  conv_rhs => rw [shape, List.filterMap_append, filterMap_idle each, List.append_nil]

theorem prefix_trimEnd (segments : List (List Char)) : trimEnd segments <+: segments := by
  obtain ⟨idle, -, shape⟩ := trimEnd_append_idle segments
  exact ⟨idle, shape.symm⟩

/-- Segments that a path with a given beginning may have. -/
structure IsLayout (start : Start) (segments : List (List Char)) : Prop where
  slashless : ∀ segment ∈ segments, '/' ∉ segment
  /-- Where a path begins neither with a slash nor with a dot, its first segment says so. -/
  plain : start = .plain → ∀ first ∈ segments.head?, first ≠ [] ∧ first ≠ ['.']

theorem IsLayout.of_prefix {start : Start} {segments fewer : List (List Char)}
    (isLayout : IsLayout start segments) (fewerFirst : fewer <+: segments) :
    IsLayout start fewer := by
  obtain ⟨behind, rfl⟩ := fewerFirst
  refine ⟨fun segment member => isLayout.slashless segment (List.mem_append_left _ member), ?_⟩
  intro plain first member
  exact isLayout.plain plain first (by simp [List.head?_append, Option.mem_def.1 member])

theorem filterMap_splitOn_joinWith {segments : List (List Char)}
    (slashless : ∀ segment ∈ segments, '/' ∉ segment) :
    (splitOn '/' (joinWith '/' segments)).filterMap componentOf? =
      segments.filterMap componentOf? := by
  cases segments with
  | nil => rfl
  | cons first later =>
    rw [Text.splitOn_eq, Text.joinWith_eq,
      List.splitOn_intercalate '/' slashless (List.cons_ne_nil _ _)]

theorem components_ofLayout {start : Start} {segments : List (List Char)}
    (isLayout : IsLayout start segments) :
    (ofLayout start segments).components =
      start.components ++ segments.filterMap componentOf? := by
  have kept := filterMap_splitOn_joinWith isLayout.slashless
  cases start with
  | root =>
    have written : (ofLayout .root segments).text.toList = '/' :: joinWith '/' segments := by
      simp [ofLayout]
    rw [components_of_slash written, kept]
    rfl
  | here =>
    cases segments with
    | nil => decide
    | cons first later =>
      have written : (ofLayout .here (first :: later)).text.toList =
          (Path.mk ".").text.toList ++ '/' :: joinWith '/' (first :: later) := by
        simp [ofLayout]
      rw [components_of_append (by decide) written, kept]
      rfl
  | plain =>
    cases segments with
    | nil => decide
    | cons first later =>
      obtain ⟨filled, apart⟩ := isLayout.plain rfl first rfl
      have cut : splitOn '/' (ofLayout .plain (first :: later)).text.toList = first :: later := by
        rw [ofLayout, String.toList_ofList, Text.splitOn_eq, Text.joinWith_eq,
          List.splitOn_intercalate '/' isLayout.slashless (List.cons_ne_nil _ _)]
      -- A first segment that is not empty does not begin with a slash.
      have relative : (ofLayout .plain (first :: later)).text.toList.head? ≠ some '/' := by
        intro slash
        obtain ⟨rest, shape⟩ := List.head?_eq_some_iff.1 slash
        rw [shape, splitOn, if_pos rfl] at cut
        exact filled (List.cons.inj cut).1.symm
      rw [components_of_ne_slash relative, cut]
      simp [Start.components, apart]

theorem isLayout_layout (filled : p.text ≠ "") : IsLayout p.layout.1 p.layout.2 := by
  have slashless : ∀ text : List Char, ∀ segment ∈ splitOn '/' text, '/' ∉ segment :=
    fun text segment => Text.not_mem_of_mem_splitOn
  unfold layout
  split
  next rest written => exact ⟨slashless rest, fun plain => by cases plain⟩
  next apart =>
    split
    next later cut =>
      exact ⟨fun segment member =>
        slashless p.text.toList segment (cut ▸ List.mem_cons_of_mem _ member),
        fun plain => by cases plain⟩
    next apart' =>
      refine ⟨slashless _, fun _ first begins => ?_⟩
      obtain ⟨later, cut⟩ := List.head?_eq_some_iff.1 begins
      refine ⟨?_, ?_⟩
      · rintro rfl
        obtain ⟨c, rest, written⟩ := List.exists_cons_of_ne_nil (mt String.toList_eq_nil_iff.1 filled)
        have solid : c ≠ '/' := fun same => apart rest (same ▸ written)
        rw [written, splitOn, if_neg solid] at cut
        split at cut <;> cases cut
      · rintro rfl
        exact apart' later cut

theorem isIdle_of_trimEnd {segments front : List (List Char)} {last : List Char}
    (trimmed : trimEnd segments = front ++ [last]) : isIdle last = false := by
  have turned : segments.reverse.dropWhile isIdle = last :: front.reverse := by
    rw [← List.reverse_inj, ← trimEnd, trimmed]
    simp
  have filled : segments.reverse.dropWhile isIdle ≠ [] := by simp [turned]
  simpa [turned] using List.head_dropWhile_not (p := isIdle) filled

/-- A path that ends in a name has a parent, which says what the path says in front of it. -/
theorem exists_parent?_components (ends : p.components = front ++ [.name name]) :
    ∃ above, p.parent? = some above ∧ above.components = front := by
  have filled : p.text ≠ "" := by
    rintro empty
    obtain ⟨text⟩ := p
    obtain rfl : text = "" := empty
    cases front <;> cases ends
  have isLayout := isLayout_layout filled
  rw [components, ← filterMap_trimEnd] at ends
  obtain none | ⟨before, last, trimmed⟩ := List.eq_nil_or_concat' (trimEnd p.layout.2)
  · -- Nothing but the beginning is left, which is no name.
    rw [none, List.filterMap_nil, List.append_nil] at ends
    have last := congrArg List.getLast? ends
    rw [List.getLast?_concat] at last
    cases begin : p.layout.1 <;> simp [begin, Start.components] at last
  · have own : IsLayout p.layout.1 (trimEnd before) :=
      isLayout.of_prefix ((prefix_trimEnd before).trans
        ((trimmed ▸ List.prefix_append before [last]).trans (prefix_trimEnd p.layout.2)))
    refine ⟨ofLayout p.layout.1 (trimEnd before), ?_, ?_⟩
    · unfold parent?
      simp [trimmed]
    · -- The last segment that is kept says something, which can only be the name.
      have busy : ∃ c, componentOf? last = some c := by
        rw [componentOf?, isIdle_of_trimEnd trimmed]
        simp only [Bool.false_eq_true, ↓reduceIte]
        split <;> exact ⟨_, rfl⟩
      obtain ⟨c, meaning⟩ := busy
      rw [trimmed, List.filterMap_append, ← List.append_assoc] at ends
      have last : [last].filterMap componentOf? = [c] := by simp [meaning]
      rw [last] at ends
      rw [components_ofLayout own, filterMap_trimEnd]
      exact List.append_inj_left' ends rfl

theorem exists_parent?_foldl_join (isName : ∀ n ∈ names, IsName n) (filled : base.text ≠ "")
    (nonempty : names ≠ []) :
    ∃ above, (names.foldl join base).parent? = some above ∧
      above.components = base.components ++ names.dropLast.map .name := by
  obtain ⟨folders, name, rfl⟩ := (List.eq_nil_or_concat' names).resolve_left nonempty
  rw [List.dropLast_concat]
  exact exists_parent?_components (components_foldl_join_concat isName filled)

end FileGraph.Path
