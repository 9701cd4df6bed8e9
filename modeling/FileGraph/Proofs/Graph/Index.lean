import FileGraph.Graph.Index
import FileGraph.Proofs.Digraph.Reach
import Mathlib.Logic.Relation

/-! # Names and numbers say the same

* `KnownStep`: a reference between two ids that are both given.
* `Index.mem_next_looplessDigraph`: the arcs of a numbered graph, by the names of its nodes.
* `Index.known_of_reaches` and `Index.reaches_of_known`: paths of numbers are paths of names.
-/

namespace FileGraph

/-- A reference between two ids that are both given. -/
def KnownStep (ids : List String) (references : List (String × String)) (x y : String) : Prop :=
  x ∈ ids ∧ y ∈ ids ∧ (x, y) ∈ references

namespace Index

variable {n : Nat} {index : Index n} {references : List (String × String)}

theorem name_of_number? {x : String} {u : Fin n} (h : index.number? x = some u) :
    index.name u = x := by
  simpa using List.find?_some h

theorem number?_eq_some_iff {x : String} {u : Fin n} :
    index.number? x = some u ↔ index.name u = x ∧ ∀ v, u < v → index.name v ≠ x := by
  have descending : (List.finRange n).reverse.Pairwise (· > ·) :=
    List.pairwise_reverse.2 (List.pairwise_lt_finRange n)
  rw [number?, List.find?_eq_some_iff_append, beq_iff_eq]
  refine and_congr_right fun _ => ⟨?_, fun last => ?_⟩
  · rintro ⟨before, after, split, others⟩ v above same
    rw [split, List.pairwise_append, List.pairwise_cons] at descending
    have member : v ∈ before ++ u :: after := split ▸ by simp
    simp only [List.mem_append, List.mem_cons] at member
    obtain early | rfl | late := member
    · simpa [same] using others v early
    · exact Nat.lt_irrefl _ above
    · exact absurd above (Nat.lt_asymm (descending.2.1.1 v late))
  · obtain ⟨before, after, split⟩ := List.append_of_mem (by simp : u ∈ (List.finRange n).reverse)
    refine ⟨before, after, split, fun v early => ?_⟩
    rw [split, List.pairwise_append] at descending
    simpa using last v (descending.2.2 v early u List.mem_cons_self)

theorem exists_number? (u : Fin n) : ∃ v, index.number? (index.name u) = some v := by
  rw [← Option.isSome_iff_exists, number?, List.find?_isSome]
  exact ⟨u, by simp, by simp⟩

theorem name_ofList (ids : List String) (u : Fin ids.length) : (ofList ids).name u = ids[u] :=
  rfl

theorem name_mem (ids : List String) (u : Fin ids.length) : (ofList ids).name u ∈ ids := by
  rw [name_ofList]
  exact List.getElem_mem _

theorem exists_number?_of_mem {ids : List String} {x : String} (member : x ∈ ids) :
    ∃ u, (ofList ids).number? x = some u := by
  obtain ⟨i, bound, rfl⟩ := List.getElem_of_mem member
  exact exists_number? (⟨i, bound⟩ : Fin ids.length)

/-! ## Arcs -/

theorem mem_next_looplessDigraph {u v : Fin n} :
    v ∈ (index.looplessDigraph references).next u ↔
      u ≠ v ∧ ∃ x y, (x, y) ∈ references ∧ index.number? x = some u ∧ index.number? y = some v := by
  simp only [looplessDigraph, Digraph.ofArcs, Digraph.next_ofNext, List.mem_filterMap,
    List.mem_filter, arcs]
  constructor
  · rintro ⟨⟨a, b⟩, ⟨⟨⟨x, y⟩, member, numbers⟩, apart⟩, tail⟩
    cases hx : index.number? x with
    | none => simp [hx] at numbers
    | some a' =>
      cases hy : index.number? y with
      | none => simp [hx, hy] at numbers
      | some b' =>
        obtain ⟨rfl, rfl⟩ : a' = a ∧ b' = b := by simpa [hx, hy] using numbers
        split at tail
        · rename_i same
          subst same
          obtain rfl := Option.some.inj tail
          exact ⟨by simpa using apart, x, y, member, hx, hy⟩
        · exact absurd tail (Option.some_ne_none v).symm
  · rintro ⟨apart, x, y, member, hx, hy⟩
    exact ⟨(u, v), ⟨⟨(x, y), member, by simp [hx, hy]⟩, by simpa using apart⟩, by simp⟩

theorem loopless_looplessDigraph : (index.looplessDigraph references).Loopless :=
  fun _ arc => (mem_next_looplessDigraph.1 arc).1 rfl

/-- Nodes with a successor have different names: of nodes with one name, only the last has any. -/
theorem eq_of_name_eq {u v : Fin n} (hu : ∃ w, w ∈ (index.looplessDigraph references).next u)
    (hv : ∃ w, w ∈ (index.looplessDigraph references).next v) (same : index.name u = index.name v) :
    u = v := by
  obtain ⟨_, arc⟩ := hu
  obtain ⟨_, arc'⟩ := hv
  obtain ⟨_, x, _, _, hx, _⟩ := mem_next_looplessDigraph.1 arc
  obtain ⟨_, y, _, _, hy, _⟩ := mem_next_looplessDigraph.1 arc'
  rw [name_of_number? hx, name_of_number? hy] at same
  subst same
  exact Option.some.inj (hx.symm.trans hy)

/-! ## Paths -/

theorem known_of_reaches {ids : List String} {u v : Fin ids.length}
    (path : ((ofList ids).looplessDigraph references).Reaches u v) :
    Relation.ReflTransGen (KnownStep ids references) ((ofList ids).name u) ((ofList ids).name v) := by
  induction path with
  | refl => exact .refl
  | @step v w _ arc ih =>
    obtain ⟨_, x, y, member, hx, hy⟩ := mem_next_looplessDigraph.1 arc
    refine ih.tail ⟨name_mem ids v, name_mem ids w, ?_⟩
    rwa [name_of_number? hx, name_of_number? hy]

theorem reaches_of_known {ids : List String} {x y : String} {u : Fin ids.length}
    (path : Relation.ReflTransGen (KnownStep ids references) x y)
    (number : (ofList ids).number? x = some u) :
    ∃ v, (ofList ids).number? y = some v ∧ ((ofList ids).looplessDigraph references).Reaches u v := by
  induction path with
  | refl => exact ⟨u, number, .refl u⟩
  | @tail y z _ known ih =>
    obtain ⟨v, hv, path⟩ := ih
    obtain ⟨w, hw⟩ := exists_number?_of_mem known.2.1
    -- A reference of a file to itself is no arc, but it leads nowhere either.
    by_cases same : v = w
    · exact ⟨v, same ▸ hw, path⟩
    · exact ⟨w, hw, path.step (mem_next_looplessDigraph.2 ⟨same, y, z, known.2.2, hv, hw⟩)⟩

end Index

end FileGraph
