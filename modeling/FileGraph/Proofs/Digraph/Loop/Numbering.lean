import FileGraph.Proofs.Digraph.Closed
import FileGraph.Proofs.Digraph.Component
import FileGraph.Proofs.Digraph.Loop.Depth
import Mathlib.Data.Fintype.Card

/-! # The numbers of the components

* `componentId_eq_iff`, `componentId_lt_length`: the place of a component tells it apart.
* `NumberLoop.exists_met`: which nodes a round of numbering comes to.
* `Numbering.Counts`: the numbers given so far are the places of the components found so far.
* `get_numbering`, `get_numbering_eq_iff`: at the end this holds of all nodes.
* `numbering_components`: two nodes have the same number exactly if each can be got to from the other.
-/

namespace FileGraph.Digraph

variable {n : Nat} {g : Digraph n} {found : List (List (Fin n))}

/-! ## Places of components -/

theorem componentId_lt_length (g : Digraph n) (u : Fin n) :
    componentId g.components u < g.components.length := by
  obtain ⟨member, inside⟩ := exists_componentOf g u
  exact List.findIdx_lt_length.2 ⟨_, member, List.contains_iff_mem.2 inside⟩

theorem componentId_eq_iff (g : Digraph n) (u v : Fin n) :
    componentId g.components u = componentId g.components v ↔ g.Mutual u v := by
  have mem_iff := (partial_components g).mem_iff
  constructor
  · intro same
    have own : ∀ w, w ∈ g.components.get ⟨componentId g.components w, componentId_lt_length g w⟩ :=
      fun w => List.contains_iff_mem.1 (List.findIdx_getElem (w := componentId_lt_length g w))
    refine (mem_iff _ (List.get_mem ..) u (own u) v).1 ?_
    simpa only [same] using own v
  · -- Of two nodes that reach each other, each component has both or none.
    have le : ∀ {u v}, g.Mutual u v → componentId g.components u ≤ componentId g.components v := by
      intro u v both
      refine List.findIdx_le_findIdx fun component member inside => ?_
      rw [List.contains_iff_mem] at inside ⊢
      exact (mem_iff component member v inside u).2 both.symm
    exact fun both => Nat.le_antisymm (le both) (le both.symm)

theorem length_addComponent_le (backwards : Digraph n) (found : List (List (Fin n))) (u : Fin n) :
    (addComponent backwards found u).length ≤ found.length + 1 := by
  unfold addComponent
  dsimp only
  split <;> simp

theorem length_components_le (g : Digraph n) : g.components.length ≤ n := by
  have bound := Cycle.length_foldl_le (length_addComponent_le g.reverse) [] g.traverse.finished
  have nodes := List.Nodup.length_le_card (nodup_finished_traverse g)
  rw [Fintype.card_fin] at nodes
  exact bound.trans (by simpa using nodes)

/-! ## A round of numbering -/

theorem mem_next_turned {u v : Fin n} : u ∈ g.turned.next v ↔ v ∈ g.next u := by
  simp only [turned, ofArcs, next_ofNext, List.mem_filterMap, List.mem_flatMap, List.mem_map,
    List.mem_finRange, true_and]
  constructor
  · rintro ⟨_, ⟨w, x, arc, rfl⟩, tail⟩
    split at tail
    next same => exact same ▸ Option.some.inj tail ▸ arc
    next => cases tail
  · intro arc
    exact ⟨(v, u), ⟨u, v, arc, rfl⟩, if_pos rfl⟩

namespace NumberLoop

variable {number : Nat} {s : NumberLoop n}

theorem numbers_look (s : NumberLoop n) (w v : Fin n) :
    (s.look number w).numbers.get v = (s.numbers.get v).or (if v = w then some number else none) := by
  unfold look
  split
  · rename_i fresh
    rw [get_set]
    by_cases same : w = v
    · subst same
      simp [fresh]
    · simp [same, Ne.symm same]
  · rename_i known
    by_cases same : v = w
    · subst same
      obtain ⟨c, known⟩ := Option.ne_none_iff_exists'.1 known
      rw [known, Option.some_or]
    · rw [if_neg same, Option.or_none]

theorem mem_stack_look {w v : Fin n} :
    v ∈ (s.look number w).stack ↔ v ∈ s.stack ∨ v = w ∧ s.numbers.get v = none := by
  unfold look
  split
  · rename_i fresh
    rw [List.mem_cons, or_comm]
    refine or_congr_right ⟨fun same => ⟨same, same ▸ fresh⟩, And.left⟩
  · rename_i known
    refine ⟨Or.inl, fun member => member.resolve_right ?_⟩
    rintro ⟨rfl, fresh⟩
    exact known fresh

theorem numbers_foldl_look (s : NumberLoop n) (row : List (Fin n)) (v : Fin n) :
    (row.foldl (look number) s).numbers.get v =
      (s.numbers.get v).or (if v ∈ row then some number else none) := by
  induction row generalizing s with
  | nil => simp
  | cons w row ih =>
    rw [List.foldl_cons, ih, numbers_look, Option.or_assoc]
    congr 1
    by_cases same : v = w <;> simp [same]

theorem mem_stack_foldl_look {row : List (Fin n)} {v : Fin n} :
    v ∈ (row.foldl (look number) s).stack ↔ v ∈ s.stack ∨ v ∈ row ∧ s.numbers.get v = none := by
  induction row generalizing s with
  | nil => simp
  | cons w row ih =>
    rw [List.foldl_cons, ih, mem_stack_look, numbers_look, List.mem_cons]
    by_cases same : v = w <;> simp [same]

/-- The nodes that a round of numbering comes to: none of them had a number, and with each of them and
with each node on the stack all neighbours have one. What holds of the nodes on the stack and goes over
from a node to its neighbours holds of all that the round comes to. -/
theorem exists_met (g : Digraph n) (number : Nat) (s : NumberLoop n) :
    ∃ met : List (Fin n),
      (∀ v : Fin n, (run g number s).get v =
        (s.numbers.get v).or (if v ∈ met then some number else none)) ∧
      (∀ v ∈ met, s.numbers.get v = none) ∧
      (∀ v ∈ s.stack ++ met, ∀ w ∈ g.next v, s.numbers.get w ≠ none ∨ w ∈ met) ∧
      ∀ p : Fin n → Prop, (∀ v ∈ s.stack, p v) → (∀ v w, p v → w ∈ g.next v → p w) →
        ∀ v ∈ met, p v := by
  fun_induction run g number s with
  | case1 numbers => exact ⟨[], by simp⟩
  | case2 numbers u below ih =>
    obtain ⟨met, value, fresh, closed, carries⟩ := ih
    have looked : ∀ v : Fin n, ((g.next u).foldl (look number) ⟨numbers, below⟩).numbers.get v =
        (numbers.get v).or (if v ∈ g.next u then some number else none) := numbers_foldl_look _ _
    let row := (g.next u).filter fun v => (numbers.get v).isNone
    have mem_row : ∀ {v}, v ∈ row ↔ v ∈ g.next u ∧ numbers.get v = none := by simp [row]
    have onStack : ∀ {v}, v ∈ ((g.next u).foldl (look number) ⟨numbers, below⟩).stack ↔
        v ∈ below ∨ v ∈ row := by
      intro v
      rw [mem_stack_foldl_look, mem_row]
    refine ⟨row ++ met, ?_, ?_, ?_, ?_⟩
    · intro v
      rw [value v, looked v, Option.or_assoc]
      cases before : numbers.get v with
      | some c => rw [Option.some_or, Option.some_or]
      | none =>
        by_cases arc : v ∈ g.next u <;> simp [arc, mem_row, before]
    · intro v member
      cases List.mem_append.1 member with
      | inl inRow => exact (mem_row.1 inRow).2
      | inr later =>
        have none := fresh v later
        rw [looked v, Option.or_eq_none_iff] at none
        exact none.1
    · intro v member w arc
      by_cases before : numbers.get w = none
      · refine Or.inr (List.mem_append.2 ?_)
        -- A neighbour without a number is in the row of `u`, or is come to later.
        by_cases same : v = u
        · exact Or.inl (mem_row.2 ⟨same ▸ arc, before⟩)
        · have later : v ∈ ((g.next u).foldl (look number) ⟨numbers, below⟩).stack ++ met := by
            rw [List.mem_append, onStack]
            simp only [List.mem_append, List.mem_cons, same, false_or] at member
            exact or_assoc.2 member
          refine (closed v later w arc).imp_left fun numbered => mem_row.2 ⟨?_, before⟩
          by_contra off
          rw [looked w, before, if_neg off] at numbered
          exact numbered rfl
      · exact Or.inl before
    · intro p start step v member
      obtain ⟨here, below⟩ := List.forall_mem_cons.1 start
      have inRow : ∀ w ∈ row, p w := fun w inRow => step u w here (mem_row.1 inRow).1
      cases List.mem_append.1 member with
      | inl member => exact inRow v member
      | inr later =>
        refine carries p (fun w waits => ?_) step v later
        exact (onStack.1 waits).elim (below w) (inRow w)

end NumberLoop

/-! ## All rounds -/

namespace Numbering

/-- The numbers given so far are the places of the components found so far. -/
structure Counts (found : List (List (Fin n))) (s : Numbering n) : Prop where
  numbers : ∀ v : Fin n, s.numbers.get v = found.findIdx? (·.contains v)
  next : s.next = found.length

theorem counts_nil : Counts ([] : List (List (Fin n))) ⟨.replicate n none, 0⟩ where
  numbers := by simp
  next := rfl

namespace Counts

variable {s : Numbering n} {done earlier : List (Fin n)} {u : Fin n}

theorem numbers_eq_none_iff (counts : Counts found s) {v : Fin n} :
    s.numbers.get v = none ↔ v ∉ found.flatten := by
  rw [counts.numbers v, List.findIdx?_eq_none_iff, List.mem_flatten]
  simp

theorem exists_component (counts : Counts found s) (partly : Partial g found done)
    (settled : g.Settled done (u :: earlier)) (nodup : (u :: earlier).Nodup)
    (all : ∀ v, v ∈ done ∨ v ∈ u :: earlier) (taken : u ∉ found.flatten) :
    ∃ component : List (Fin n), (∀ v, v ∈ component ↔ g.Mutual u v) ∧ ∀ v : Fin n,
      (NumberLoop.run g.turned s.next ⟨s.numbers.set u (some s.next) u.isLt, [u]⟩).get v =
        (s.numbers.get v).or (if v ∈ component then some s.next else none) := by
  obtain ⟨met, value, fresh, closed, carries⟩ := NumberLoop.exists_met g.turned s.next
    ⟨s.numbers.set u (some s.next) u.isLt, [u]⟩
  simp only [get_set] at value fresh closed
  have untaken : ∀ v ∈ met, v ∉ found.flatten := by
    intro v member
    have fresh := fresh v member
    split at fresh
    · cases fresh
    · exact counts.numbers_eq_none_iff.1 fresh
  -- Against the arcs, whatever is met leads to `u`.
  have leads : ∀ v ∈ met, g.Reaches v u := by
    refine carries (g.Reaches · u) (List.forall_mem_singleton.2 (.refl u)) ?_
    exact fun v w path arc => .head (mem_next_turned.1 arc) path
  refine ⟨u :: met, ?_, fun v => ?_⟩
  · refine partly.mem_iff_of_closed settled nodup all taken List.mem_cons_self
      (List.forall_mem_cons.2 ⟨.refl u, leads⟩) ?_ ?_
    · exact fun v member => (List.mem_cons.1 member).imp_right (untaken v)
    · intro v w member arc
      -- A neighbour has a number from before, is met now, or is `u` itself.
      have numbered := closed v member w (mem_next_turned.2 arc)
      by_cases same : u = w
      · exact Or.inr (same ▸ List.mem_cons_self)
      · rw [if_neg same] at numbered
        exact numbered.imp (fun known => not_not.1 (mt counts.numbers_eq_none_iff.2 known))
          (List.mem_cons_of_mem u)
  · rw [value v]
    by_cases same : u = v
    · subst same
      rw [if_pos rfl, counts.numbers_eq_none_iff.2 taken]
      simp
    · simp [same, Ne.symm same]

theorem add (counts : Counts found s) (partly : Partial g found done)
    (settled : g.Settled done (u :: earlier)) (nodup : (u :: earlier).Nodup)
    (all : ∀ v, v ∈ done ∨ v ∈ u :: earlier) :
    Counts (addComponent g.reverse found u) (s.add g.turned u) := by
  unfold Numbering.add addComponent
  by_cases taken : u ∈ found.flatten
  · rw [if_neg (mt counts.numbers_eq_none_iff.1 (not_not_intro taken))]
    simp only [List.contains_iff_mem.2 taken, ↓reduceIte]
    exact counts
  · rw [if_pos (counts.numbers_eq_none_iff.2 taken), if_neg (mt List.contains_iff_mem.1 taken)]
    obtain ⟨component, mem_iff, value⟩ :=
      counts.exists_component partly settled nodup all taken
    refine ⟨fun v => ?_, by simp [counts.next]⟩
    have same := (partly.mem_met_iff settled nodup all taken v).trans (mem_iff v).symm
    rw [value v, List.findIdx?_append, ← counts.numbers v, List.findIdx?_singleton, counts.next]
    simp only [List.contains_iff_mem, same]
    congr 1
    by_cases inside : v ∈ component <;> simp [inside]

theorem foldl_add (counts : Counts found s) (partly : Partial g found done) {left : List (Fin n)}
    (settled : g.Settled done left) (nodup : left.Nodup) (all : ∀ v, v ∈ done ∨ v ∈ left) :
    Counts (left.foldl (addComponent g.reverse) found) (left.foldl (Numbering.add g.turned) s) := by
  induction left generalizing found done s with
  | nil => exact counts
  | cons u earlier ih =>
    refine ih (counts.add partly settled nodup all) (partly.add settled nodup all) settled.2
      (List.nodup_cons.1 nodup).2 ?_
    intro v
    have := all v
    rw [List.mem_cons] at this ⊢
    tauto

end Counts

end Numbering

/-- The number of a node is the place of its component. -/
theorem get_numbering (g : Digraph n) (u : Fin n) :
    g.numbering.get u = some (componentId g.components u) := by
  have counts := Numbering.counts_nil.foldl_add Partial.nil (settled_traverse g)
    (nodup_finished_traverse g) fun v => Or.inr (mem_finished_traverse g v)
  have order : (g.depthLoop (List.finRange n)).leftNodes.reverse = g.traverse.finished := by
    rw [leftNodes_depthLoop, List.reverse_reverse]
  rw [numbering, order]
  exact (counts.numbers u).trans
    (List.findIdx?_eq_some_iff_findIdx_eq.2 ⟨componentId_lt_length g u, rfl⟩)

theorem get_numbering_eq_iff (g : Digraph n) (u v : Fin n) :
    g.numbering.get u = g.numbering.get v ↔ g.Mutual u v := by
  rw [get_numbering, get_numbering, Option.some_inj]
  exact componentId_eq_iff g u v

/-- Every node gets a number, and there are no more numbers than nodes. Two nodes have the same number
exactly if each of them can be got to from the other. The number is the place of the component of the
node among all components. -/
theorem numbering_components (g : Digraph n) :
    (∀ u : Fin n, ∃ number < n, g.numbering.get u = some number) ∧
      (∀ u v : Fin n, g.numbering.get u = g.numbering.get v ↔ g.Reaches u v ∧ g.Reaches v u) ∧
      ∀ u : Fin n, g.numbering.get u = some (componentId g.components u) := by
  refine ⟨fun u => ?_, get_numbering_eq_iff g, get_numbering g⟩
  exact ⟨_, (componentId_lt_length g u).trans_le (length_components_le g), get_numbering g u⟩

end FileGraph.Digraph
