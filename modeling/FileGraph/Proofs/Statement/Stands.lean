import FileGraph.Proofs.Statement.Quotes

/-! # Where targets stand in a text

* `Stands`, `stands_of_mem_search`: a target at its place in the text.
* `pairwise_search_apart`: no target overlaps with a later one.
* `Extract.located_of_mem_found`: whatever is found in a text stands there, is not empty and stands
  on one line.
-/

namespace FileGraph

namespace Statement

variable {recognise : Recogniser} {text : List Char} {p : Place} {spot : Place × List Char}

/-- A target stands at its place in a text that begins at `p`. -/
def Stands (text : List Char) (p : Place) (spot : Place × List Char) : Prop :=
  ∃ lead trail, text = lead ++ spot.2 ++ trail ∧ spot.1 = p.advance lead

theorem Stands.inner {outer : Place × List Char} (stands : Stands text p outer)
    (inner : Stands outer.2 outer.1 spot) : Stands text p spot := by
  obtain ⟨lead, trail, rfl, place⟩ := stands
  obtain ⟨lead', trail', shape, place'⟩ := inner
  refine ⟨lead ++ lead', trail' ++ trail, by simp [shape], ?_⟩
  rw [place', place, Place.advance_append]

theorem exists_hit_of_mem_search (exact : recognise.Exact) {pending : Nat}
    (member : spot ∈ search recognise pending p text) :
    ∃ before inside hit front trail, recognise before inside = some hit ∧
      text = front ++ hit.lead ++ spot.2 ++ trail ∧ spot.1 = p.advance (front ++ hit.lead) := by
  -- A character that is passed over belongs to what stands in front.
  have further : ∀ {p : Place} {c : Char} {rest : List Char},
      (∃ before inside hit front trail, recognise before inside = some hit ∧
        rest = front ++ hit.lead ++ spot.2 ++ trail ∧
        spot.1 = (p.step c).advance (front ++ hit.lead)) →
      ∃ before inside hit front trail, recognise before inside = some hit ∧
        c :: rest = front ++ hit.lead ++ spot.2 ++ trail ∧ spot.1 = p.advance (front ++ hit.lead) := by
    rintro p c rest ⟨before, inside, hit, front, trail, found, rfl, place⟩
    exact ⟨before, inside, hit, c :: front, trail, found, rfl, place⟩
  fun_induction search recognise pending p text with
  | case1 => cases member
  | case2 p pending c rest ih => exact further (ih member)
  | case3 p c rest silent ih => exact further (ih member)
  | case4 p c rest hit found ih =>
    cases List.mem_cons.1 member with
    | inl here =>
      obtain ⟨behind, shape⟩ := exact _ _ _ found
      subst here
      exact ⟨_, _, hit, [], hit.trail ++ behind, found, by simp [← shape], rfl⟩
    | inr later => exact further (ih later)

theorem stands_of_mem_search (exact : recognise.Exact) {pending : Nat}
    (member : spot ∈ search recognise pending p text) : Stands text p spot := by
  obtain ⟨-, -, hit, front, trail, -, shape, place⟩ := exists_hit_of_mem_search exact member
  exact ⟨front ++ hit.lead, trail, shape, place⟩

theorem plain_of_mem_search (reading : recognise.Reading) {pending : Nat}
    (member : spot ∈ search recognise pending p text) : Plain spot.2 := by
  fun_induction search recognise pending p text with
  | case1 => cases member
  | case2 p pending c rest ih => exact ih member
  | case3 p c rest silent ih => exact ih member
  | case4 p c rest hit found ih =>
    cases List.mem_cons.1 member with
    | inl here => exact here ▸ reading.plain _ _ _ found
    | inr later => exact ih later

theorem pairwise_search_apart (pending : Nat) (p : Place) (text : List Char) :
    (search recognise pending p text).Pairwise fun a b =>
      a.1.offset + a.2.length ≤ b.1.offset ∨ a.2 = [] := by
  fun_induction search recognise pending p text with
  | case1 => exact .nil
  | case2 p pending c rest ih => exact ih
  | case3 p c rest silent ih => exact ih
  | case4 p c rest hit found ih =>
    refine List.pairwise_cons.2 ⟨?_, ih⟩
    intro spot member
    by_cases empty : hit.target = []
    · exact .inr empty
    · -- The rest of the search begins behind the statement, the target being a part of it.
      have later := le_offset_of_mem_search member
      have filled := List.length_pos_iff.2 empty
      rw [Place.offset_step, Hit.size] at later
      refine .inl ?_
      rw [Place.offset_advance]
      dsimp only
      omega

/-- A target at its place in a text. -/
structure Located (text : List Char) (spot : Place × List Char) : Prop where
  stands : Stands text .start spot
  plain : Plain spot.2

theorem located_of_mem_search (reading : recognise.Reading) :
    ∀ spot ∈ search recognise 0 .start text, Located text spot := by
  intro spot member
  exact ⟨stands_of_mem_search reading.exact member, plain_of_mem_search reading member⟩

theorem Go.located_of_mem_blockEntries : ∀ spot ∈ blockEntries text, Located text spot := by
  intro spot member
  obtain ⟨⟨place, body⟩, inText, inBody⟩ := List.mem_flatMap.1 member
  have outer := stands_of_mem_search exact_block inText
  have inner := stands_of_mem_search reading_entry.exact inBody
  exact ⟨outer.inner inner, plain_of_mem_search reading_entry inBody⟩

end Statement

namespace Extract

open Statement

theorem located_of_mem_found (language : Language) (text : List Char) :
    ∀ form ∈ found language text, ∀ spot ∈ form.1, Located text spot := by
  cases language with
  | typeScript | javaScript =>
    simp only [found, List.forall_mem_cons]
    exact ⟨located_of_mem_search Script.reading_importFrom,
      located_of_mem_search Script.reading_requireCall,
      located_of_mem_search Script.reading_importCall,
      located_of_mem_search Script.reading_exportFrom, by simp⟩
  | python =>
    simp only [found, List.forall_mem_cons]
    exact ⟨located_of_mem_search Line.reading_pythonImport,
      located_of_mem_search Line.reading_pythonFrom, by simp⟩
  | java | cSharp =>
    simp only [found, List.forall_mem_singleton]
    exact located_of_mem_search (Line.reading_packageUse _)
  | c | cpp =>
    simp only [found, List.forall_mem_singleton]
    exact located_of_mem_search Line.reading_includeFile
  | go =>
    simp only [found, List.forall_mem_cons]
    exact ⟨located_of_mem_search Go.reading_single, Go.located_of_mem_blockEntries, by simp⟩
  | rust =>
    simp only [found, List.forall_mem_singleton]
    exact located_of_mem_search Rust.reading_useDeclaration
  | ruby | php | swift | kotlin | scala | dart | vue | svelte | unknown => simp [found]

end Extract

end FileGraph
