import FileGraph.Proofs.Statement.Search
import Mathlib.Data.List.Nodup
import Mathlib.Data.List.Perm.Basic

/-! # Texts made of pieces

Where a text is made of pieces and every form of statement finds in it, piece by piece, what it finds
in each, the findings of all the forms come in the order of the pieces.

* `Statement.placed`: the pieces of a text, each with its place.
* `Extract.merge_eq_of_perm`: findings at different places have one order.
* `Extract.merge_placed`: the findings of several forms, piece by piece.
-/

namespace FileGraph

namespace Statement

section

variable {α : Type} (text : α → List Char)

/-- The pieces of a text that begins at a place, each with its own place. -/
def placed : Place → List α → List (Place × α)
  | _, [] => []
  | p, piece :: later => (p, piece) :: placed (p.advance (text piece)) later

theorem le_offset_of_mem_placed {p : Place} {pieces : List α} {piece : Place × α}
    (member : piece ∈ placed text p pieces) : p.offset ≤ piece.1.offset := by
  induction pieces generalizing p with
  | nil => cases member
  | cons first later ih =>
    cases List.mem_cons.1 member with
    | inl here => exact here ▸ Nat.le_refl _
    | inr behind =>
      have later := ih behind
      rw [Place.offset_advance] at later
      omega

theorem offset_add_le_of_mem_placed {p : Place} {pieces : List α} {piece : Place × α}
    (member : piece ∈ placed text p pieces) :
    piece.1.offset + (text piece.2).length ≤ p.offset + (pieces.flatMap text).length := by
  induction pieces generalizing p with
  | nil => cases member
  | cons first later ih =>
    rw [List.flatMap_cons, List.length_append]
    cases List.mem_cons.1 member with
    | inl here =>
      subst here
      dsimp only
      omega
    | inr behind =>
      have later := ih behind
      rw [Place.offset_advance] at later
      omega

theorem mem_of_mem_placed {p : Place} {pieces : List α} {piece : Place × α}
    (member : piece ∈ placed text p pieces) : piece.2 ∈ pieces := by
  induction pieces generalizing p with
  | nil => cases member
  | cons first later ih =>
    cases List.mem_cons.1 member with
    | inl here => exact here ▸ List.mem_cons_self
    | inr behind => exact List.mem_cons_of_mem _ (ih behind)

theorem pairwise_placed (p : Place) (pieces : List α) :
    (placed text p pieces).Pairwise fun a b => a.1.offset + (text a.2).length ≤ b.1.offset := by
  induction pieces generalizing p with
  | nil => exact .nil
  | cons first later ih =>
    refine List.pairwise_cons.2 ⟨fun piece member => ?_, ih _⟩
    have behind := le_offset_of_mem_placed text member
    rwa [Place.offset_advance] at behind

end

end Statement

namespace Extract

open Statement

/-- Findings in the order of the text, all of them between two offsets. -/
structure Ascending (start stop : Nat) (spots : List (Place × List Char × Kind)) : Prop where
  ordered : spots.Pairwise fun a b => a.1.offset < b.1.offset
  inside : ∀ spot ∈ spots, start ≤ spot.1.offset ∧ spot.1.offset < stop

theorem merge_eq_of_perm {forms : List (List (Place × List Char) × Kind)}
    {found : List (Place × List Char × Kind)} (perm : (spots forms).Perm found)
    (ascending : found.Pairwise fun a b => a.1.offset < b.1.offset) :
    merge forms = found.map toReference := by
  have apart : (found.map (·.1.offset)).Nodup :=
    List.pairwise_map.2 (ascending.imp Nat.ne_of_lt)
  have whole := (List.mergeSort_perm (spots forms) fun a b => a.1.offset ≤ b.1.offset).trans perm
  have same : (spots forms).mergeSort (fun a b => a.1.offset ≤ b.1.offset) = found := by
    -- No two offsets are equal, so that in order of them there is one list alone.
    refine whole.eq_of_pairwise (fun a b here there before after => ?_)
      (pairwise_mergeSort_offset _) (ascending.imp Nat.le_of_lt)
    exact List.inj_on_of_nodup_map apart (whole.mem_iff.1 here) there (Nat.le_antisymm before after)
  rw [merge, same]

theorem flatMap_flatMap_perm {α β γ : Type} (as : List α) (bs : List β) (f : α → β → List γ) :
    (as.flatMap fun a => bs.flatMap (f a)).Perm (bs.flatMap fun b => as.flatMap fun a => f a b) := by
  induction bs with
  | nil => simp
  | cons b bs ih =>
    simp only [List.flatMap_cons]
    exact (List.flatMap_append_perm as _ _).symm.trans (ih.append_left _)

section

variable {α φ : Type} (text : α → List Char) (p : Place) (pieces : List α) (forms : List (φ × Kind))
  (finds : φ → Place × α → List (Place × List Char))
  (found : Place × α → List (Place × List Char × Kind))

theorem spots_placed_perm (perm : ∀ piece ∈ placed text p pieces,
      (forms.flatMap fun form => (finds form.1 piece).map fun spot => (spot.1, spot.2, form.2)).Perm
        (found piece)) :
    (spots (forms.map fun form => ((placed text p pieces).flatMap (finds form.1), form.2))).Perm
      ((placed text p pieces).flatMap found) := by
  simp only [spots, List.flatMap_map, List.map_flatMap]
  exact (flatMap_flatMap_perm _ _ _).trans (List.Perm.flatMap_left _ perm)

theorem pairwise_flatMap_placed (ascending : ∀ piece ∈ placed text p pieces,
      Ascending piece.1.offset (piece.1.offset + (text piece.2).length) (found piece)) :
    ((placed text p pieces).flatMap found).Pairwise fun a b => a.1.offset < b.1.offset := by
  refine List.pairwise_flatMap.2 ⟨fun piece member => (ascending piece member).ordered, ?_⟩
  refine (pairwise_placed text p pieces).imp_of_mem fun {a b} first second before => ?_
  intro x inFirst y inSecond
  have low := (ascending a first).inside x inFirst
  have high := (ascending b second).inside y inSecond
  omega

theorem merge_placed (perm : ∀ piece ∈ placed text p pieces,
      (forms.flatMap fun form => (finds form.1 piece).map fun spot => (spot.1, spot.2, form.2)).Perm
        (found piece))
    (ascending : ∀ piece ∈ placed text p pieces,
      Ascending piece.1.offset (piece.1.offset + (text piece.2).length) (found piece)) :
    merge (forms.map fun form => ((placed text p pieces).flatMap (finds form.1), form.2)) =
      ((placed text p pieces).flatMap found).map toReference :=
  merge_eq_of_perm (spots_placed_perm text p pieces forms finds found perm)
    (pairwise_flatMap_placed text p pieces found ascending)

end

end Extract

end FileGraph
