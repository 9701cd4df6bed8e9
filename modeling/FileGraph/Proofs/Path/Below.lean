import FileGraph.Proofs.Path.Normal

/-! # What is written below a normal form

A normal form is written like names that are joined one after another, so that it may be gone down and
up name by name, as a text.

* `Path.join_intercalate`: segments with slashes in between are joined one after another.
* `Path.Lexical.IsProper.toPath_foldl_push`: a normal form with more names is written with more names.
* `Path.layout_ofLayout`: what is put together from segments falls apart into them.
* `Path.Lexical.IsProper.parent?_push_name`: the path above a name.
-/

namespace FileGraph.Path

open Text (splitOn joinWith)

variable {base : Path} {text name : String} {names : List String} {l : Lexical}

/-! ## Segments that are joined -/

theorem eq_of_toList_text_eq {p q : Path} (same : p.text.toList = q.text.toList) : p = q := by
  obtain ⟨text⟩ := p
  exact congrArg mk (String.toList_inj.1 same)

theorem IsSegment.getLast?_ne (isSegment : IsSegment text) : text.toList.getLast? ≠ some '/' :=
  fun last => isSegment.slashless (List.mem_of_getLast? last)

theorem join_join {more : String} (isSegment : IsSegment text) (relative : more.toList.head? ≠ some '/')
    (base : Path) : (base.join text).join more = base.join (text ++ "/" ++ more) := by
  have filled : text ≠ "" := mt String.toList_eq_nil_iff.2 isSegment.filled
  have ends : (base.join text).text.toList.getLast? ≠ some '/' := by
    rw [getLast?_join filled]
    exact isSegment.getLast?_ne
  have filled' : (base.join text).text ≠ "" := by
    intro empty
    have same := getLast?_join filled base
    rw [empty] at same
    exact isSegment.filled (List.getLast?_eq_none_iff.1 same.symm)
  rw [String.append_assoc, join_append filled, withSuffix]
  have written := toList_text_join relative filled'
  rw [if_neg ends] at written
  apply eq_of_toList_text_eq
  rw [written]
  simp

theorem head?_intercalate (isSegment : ∀ name ∈ names, IsSegment name) :
    ("/".intercalate names).toList.head? ≠ some '/' := by
  cases names with
  | nil => decide
  | cons name later =>
    have own := isSegment name List.mem_cons_self
    obtain ⟨c, rest, shape⟩ := List.exists_cons_of_ne_nil own.filled
    have apart : c ≠ '/' := fun slash => own.slashless (by simp [shape, slash])
    cases later with
    | nil => simpa [shape] using apart
    | cons second later => simpa [shape] using apart

theorem join_intercalate (nonempty : names ≠ []) (isSegment : ∀ name ∈ names, IsSegment name)
    (base : Path) : base.join ("/".intercalate names) = names.foldl join base := by
  induction names generalizing base with
  | nil => exact absurd rfl nonempty
  | cons name later ih =>
    obtain ⟨own, others⟩ := List.forall_mem_cons.1 isSegment
    cases later with
    | nil => simp
    | cons second later =>
      rw [List.foldl_cons, ← ih (List.cons_ne_nil _ _) others,
        join_join own (head?_intercalate others), String.intercalate_cons_cons]

/-! ## Names below a normal form -/

namespace Lexical

/-- Where the segments of a normal form are read from. -/
def origin : Lexical → Path
  | rooted _ => ⟨"/"⟩
  | loose _ _ => ⟨""⟩

theorem IsProper.isSegment (proper : l.IsProper) : ∀ segment ∈ l.segments, IsSegment segment := by
  cases l with
  | rooted names => exact fun segment member => (proper segment member).toIsSegment
  | loose climbs names =>
    intro segment member
    obtain up | own := List.mem_append.1 member
    · rw [List.eq_of_mem_replicate up]
      exact ⟨by decide, by decide⟩
    · exact (proper segment own).toIsSegment

theorem toPath_eq_foldl_join (proper : l.IsProper) : l.toPath = l.segments.foldl join l.origin := by
  have isSegment := proper.isSegment
  by_cases empty : l.segments = []
  · rw [empty]
    cases l with
    | rooted names =>
      obtain rfl : names = [] := empty
      rfl
    | loose climbs names =>
      have written : (loose climbs names).toPath = ⟨"/".intercalate (loose climbs names).segments⟩ := rfl
      rw [written, empty]
      rfl
  · rw [← join_intercalate empty isSegment]
    have relative := head?_intercalate isSegment
    cases l with
    | rooted names =>
      apply eq_of_toList_text_eq
      rw [origin, toList_text_join relative (by decide), if_pos (by decide)]
      simp [toPath, segments]
    | loose climbs names => simp [join, origin, toPath, segments]

theorem segments_foldl_push (l : Lexical) (names : List String) :
    ((names.map .name).foldl push l).segments = l.segments ++ names := by
  induction names generalizing l with
  | nil => simp
  | cons name later ih =>
    rw [List.map_cons, List.foldl_cons, ih]
    cases l <;> simp [push, segments]

theorem origin_foldl_push (l : Lexical) (names : List String) :
    ((names.map .name).foldl push l).origin = l.origin := by
  induction names generalizing l with
  | nil => rfl
  | cons name later ih =>
    rw [List.map_cons, List.foldl_cons, ih]
    cases l <;> rfl

theorem IsProper.foldl_push_name (proper : l.IsProper) (isName : ∀ name ∈ names, IsName name) :
    ((names.map .name).foldl push l).IsProper := by
  refine isProper_foldl_push proper fun name member => ?_
  obtain ⟨_, given, ⟨⟩⟩ := List.mem_map.1 member
  exact isName name given

theorem IsProper.toPath_foldl_push (proper : l.IsProper) (isName : ∀ name ∈ names, IsName name) :
    ((names.map .name).foldl push l).toPath = names.foldl join l.toPath := by
  rw [toPath_eq_foldl_join (proper.foldl_push_name isName), toPath_eq_foldl_join proper, segments_foldl_push,
    origin_foldl_push, List.foldl_append]

end Lexical

/-! ## The path above a name -/

theorem layout_ofLayout {start : Start} {segments : List (List Char)}
    (isLayout : IsLayout start segments) (nonempty : segments ≠ []) :
    (ofLayout start segments).layout = (start, segments) := by
  have cut := splitOn_joinWith nonempty isLayout.slashless
  obtain ⟨first, later, rfl⟩ := List.exists_cons_of_ne_nil nonempty
  cases start with
  | root => simp [ofLayout, layout, cut]
  | here =>
    have dot : splitOn '/' ['.'] = [['.']] := by decide
    have behind := Text.splitOn_append_cons '/' ['.'] (joinWith '/' (first :: later))
    rw [cut, dot, List.singleton_append, List.singleton_append] at behind
    simp [ofLayout, layout, behind]
  | plain =>
    obtain ⟨filled, apart⟩ := isLayout.plain rfl first rfl
    have written : (ofLayout .plain (first :: later)).text.toList = joinWith '/' (first :: later) :=
      String.toList_ofList
    unfold layout
    rw [written]
    split
    next rest slash =>
      rw [slash, splitOn, if_pos rfl] at cut
      exact absurd (List.cons.inj cut).1.symm filled
    next =>
      rw [cut]
      simp [apart]

theorem trimEnd_eq_self {segments : List (List Char)}
    (busy : ∀ segment ∈ segments, isIdle segment = false) : trimEnd segments = segments := by
  rw [trimEnd, List.dropWhile_eq_self_iff.2, List.reverse_reverse]
  intro more
  rw [busy _ (List.mem_reverse.1 (List.getElem_mem more))]
  exact Bool.false_ne_true

namespace Lexical

theorem IsProper.isIdle_eq (proper : l.IsProper) :
    ∀ segment ∈ l.segments.map (·.toList), isIdle segment = false := by
  refine List.forall_mem_map.2 fun segment member => ?_
  cases l with
  | rooted names => exact (proper segment member).isIdle_eq
  | loose climbs names =>
    obtain up | own := List.mem_append.1 member
    · rw [List.eq_of_mem_replicate up]
      decide
    · exact (proper segment own).isIdle_eq

/-- The path above a name is the path that the name is joined to. -/
theorem IsProper.parent?_push_name (proper : l.IsProper) (isName : IsName name) :
    (l.push (.name name)).toPath.parent? = some l.toPath := by
  have proper' : (l.push (.name name)).IsProper :=
    proper.foldl_push_name (List.forall_mem_singleton.2 isName)
  have start : (l.push (.name name)).start = l.start := by cases l <;> rfl
  have segments : (l.push (.name name)).segments.map (·.toList) =
      l.segments.map (·.toList) ++ [name.toList] := by
    cases l <;> simp [push, Lexical.segments]
  -- No segment of a normal form is idle, so there is nothing to trim before or behind the name.
  have busy := proper'.isIdle_eq
  have isLayout := proper'.isLayout
  rw [toPath_eq_ofLayout, parent?, layout_ofLayout isLayout (by simp [segments])]
  simp only [trimEnd_eq_self busy]
  rw [segments, List.reverse_concat]
  dsimp only
  rw [List.reverse_reverse, trimEnd_eq_self proper.isIdle_eq, start, ← toPath_eq_ofLayout]

end Lexical

end FileGraph.Path
