import FileGraph.Extract

/-! # Searching a text for statements

* `search_pass`: a part of a text in which no statement begins is passed over.
* `search_hit`: a statement is found and passed over as a whole.
* `le_offset_of_mem_search`: what is found lies behind what is passed over.
* `Extract.merge_of_pairwise`: findings that stand in order already keep it.
-/

namespace FileGraph.Statement

variable {recognise : Recogniser}

namespace Place

theorem advance_append (p : Place) (front back : List Char) :
    p.advance (front ++ back) = (p.advance front).advance back :=
  List.foldl_append

theorem before_advance_concat (p : Place) (front : List Char) (c : Char) :
    (p.advance (front ++ [c])).before = some c := by
  rw [advance_append]
  rfl

theorem offset_step (p : Place) (c : Char) : (p.step c).offset = p.offset + 1 :=
  rfl

theorem offset_advance (p : Place) (text : List Char) :
    (p.advance text).offset = p.offset + text.length := by
  induction text generalizing p with
  | nil => rfl
  | cons c text ih =>
      change ((p.step c).advance text).offset = _
      rw [ih, List.length_cons, offset_step]
      omega

theorem line_advance (p : Place) (text : List Char) :
    (p.advance text).line = p.line + text.count '\n' := by
  induction text generalizing p with
  | nil => rfl
  | cons c text ih =>
      change ((p.step c).advance text).line = _
      rw [ih, List.count_cons, step]
      by_cases feed : c = '\n'
      · simp only [feed, ↓reduceIte, beq_self_eq_true]
        omega
      · simp [feed]

end Place

/-! ## Passing over parts of a text -/

theorem search_pending (p : Place) (passed rest : List Char) :
    search recognise passed.length p (passed ++ rest) =
      search recognise 0 (p.advance passed) rest := by
  induction passed generalizing p with
  | nil => rfl
  | cons c passed ih => exact ih (p.step c)

theorem search_pass (p : Place) (part rest : List Char)
    (quiet : ∀ front inside, inside ≠ [] → part = front ++ inside →
      recognise (p.advance front).before (inside ++ rest) = none) :
    search recognise 0 p (part ++ rest) = search recognise 0 (p.advance part) rest := by
  induction part generalizing p with
  | nil => rfl
  | cons c part ih =>
      have first := quiet [] (c :: part) (List.cons_ne_nil _ _) rfl
      rw [List.cons_append] at first ⊢
      rw [search, show recognise p.before (c :: (part ++ rest)) = none from first]
      exact ih (p.step c) fun front inside filled shape =>
        quiet (c :: front) inside filled (congrArg (c :: ·) shape)

theorem search_hit {p : Place} {whole rest : List Char} {hit : Hit} (filled : whole ≠ [])
    (found : recognise p.before (whole ++ rest) = some hit) (size : hit.size = whole.length) :
    search recognise 0 p (whole ++ rest) =
      (p.advance hit.lead, hit.target) :: search recognise 0 (p.advance whole) rest := by
  cases whole with
  | nil => exact absurd rfl filled
  | cons c whole =>
      rw [List.cons_append] at found ⊢
      rw [search, found]
      dsimp only
      rw [size, List.length_cons, Nat.add_sub_cancel, search_pending]
      rfl

/-! ## The order of what is found -/

theorem le_offset_of_mem_search {pending : Nat} {p : Place} {text : List Char}
    {spot : Place × List Char} (member : spot ∈ search recognise pending p text) :
    p.offset + pending ≤ spot.1.offset := by
  fun_induction search recognise pending p text with
  | case1 => cases member
  | case2 p pending c rest ih =>
      have later := ih member
      rw [Place.offset_step] at later
      omega
  | case3 p c rest silent ih =>
      have later := ih member
      rw [Place.offset_step] at later
      omega
  | case4 p c rest hit found ih =>
      cases List.mem_cons.1 member with
      | inl here =>
          rw [here, Place.offset_advance]
          omega
      | inr behind =>
          have later := ih behind
          rw [Place.offset_step] at later
          omega

/-! ## Statements that are there -/

theorem within_eq (lead target trail rest : List Char) :
    Hit.within (lead ++ target ++ trail ++ rest) target (trail ++ rest) rest =
      ⟨lead, target, trail⟩ := by
  have behind : (lead ++ target ++ trail ++ rest).length - (target.length + (trail ++ rest).length)
      = lead.length := by
    simp only [List.length_append]
    omega
  have inside : (trail ++ rest).length - rest.length = trail.length := by
    rw [List.length_append]
    omega
  rw [Hit.within, upTo, behind, inside, List.append_assoc, List.append_assoc, List.take_left,
    List.take_left]

theorem takeSome?_append {inClass : Char → Bool} {taken : List Char} (filled : taken ≠ [])
    (all : ∀ c ∈ taken, inClass c = true) {stop : Char} (ends : inClass stop = false)
    (rest : List Char) :
    takeSome? inClass (taken ++ stop :: rest) = some (taken, stop :: rest) := by
  have front : (taken ++ stop :: rest).takeWhile inClass = taken := by
    rw [List.takeWhile_append_of_pos all, List.takeWhile_cons_of_neg (by simp [ends]),
      List.append_nil]
  have back : (taken ++ stop :: rest).dropWhile inClass = stop :: rest := by
    rw [List.dropWhile_append_of_pos all, List.dropWhile_cons_of_neg (by simp [ends])]
  rw [takeSome?, front, back]
  cases taken with
  | nil => exact absurd rfl filled
  | cons c taken => rfl

end FileGraph.Statement

namespace FileGraph.Extract

open Statement

theorem pairwise_mergeSort_offset (found : List (Place × List Char × Kind)) :
    (found.mergeSort fun a b => a.1.offset ≤ b.1.offset).Pairwise
      fun a b => a.1.offset ≤ b.1.offset := by
  have sorted : (found.mergeSort fun a b => a.1.offset ≤ b.1.offset).Pairwise
      fun a b => decide (a.1.offset ≤ b.1.offset) :=
    List.pairwise_mergeSort (fun a b c => by simpa using Nat.le_trans)
      (fun a b => by simpa using Nat.le_total a.1.offset b.1.offset) found
  exact sorted.imp of_decide_eq_true

theorem merge_of_pairwise {found : List (List (Place × List Char) × Kind)}
    (ordered : (spots found).Pairwise fun a b => a.1.offset ≤ b.1.offset) :
    merge found = (spots found).map toReference := by
  rw [merge, List.mergeSort_of_pairwise (ordered.imp decide_eq_true)]

end FileGraph.Extract
