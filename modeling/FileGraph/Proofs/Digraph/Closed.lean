import FileGraph.Graph.Cycle
import Mathlib.Algebra.BigOperators.Group.Finset.Piecewise
import Mathlib.Algebra.Order.Ring.Nat
import Mathlib.Data.Fintype.Basic

/-! # How many cycles are found

A search in the depth looks at every arc once, and closes one cycle at most when it does.

* `Traversal.ahead`: the arcs that are not looked at yet.
* `Traversal.step_closed_add_ahead_le`, `Traversal.run_closed_add_ahead_le`: each cycle takes an arc.
* `length_closed_le`: a search closes no more cycles than there are arcs.
* `Cycle.length_detect_le`: cycles that are recorded, by the numbers of references and files.
-/

namespace FileGraph

namespace Digraph

variable {n : Nat} (g : Digraph n)

def size : Nat :=
  ∑ v, (g.next v).length

theorem length_next_ofArcs (arcs : List (Fin n × Fin n)) (u : Fin n) :
    ((ofArcs arcs).next u).length = arcs.countP (·.1 = u) := by
  rw [ofArcs, next_ofNext]
  induction arcs with
  | nil => rfl
  | cons arc arcs ih => by_cases same : arc.1 = u <;> simp [same, ih]

theorem size_ofArcs (arcs : List (Fin n × Fin n)) : (ofArcs arcs).size = arcs.length := by
  simp only [size, length_next_ofArcs]
  induction arcs with
  | nil => simp
  | cons arc arcs ih => simp [List.countP_cons, Finset.sum_add_distrib, ih]

namespace Traversal

/-- The arcs in the rows of the nodes that are not seen. -/
def unseenArcs (seen : List (Fin n)) : Nat :=
  ∑ v with v ∉ seen, (g.next v).length

/-- Seeing a node takes its row out of those of the nodes that are not seen. -/
theorem unseenArcs_cons {seen : List (Fin n)} {v : Fin n} (fresh : v ∉ seen) :
    (g.next v).length + unseenArcs g (v :: seen) = unseenArcs g seen := by
  have member : v ∈ Finset.univ.filter (· ∉ seen) := by simpa
  rw [unseenArcs, unseenArcs, ← Finset.add_sum_erase _ _ member]
  congr 2
  ext u
  simp

/-- The arcs that are not looked at yet: those left in the frames, and those of unseen nodes. -/
def ahead (t : Traversal n) : Nat :=
  (t.frames.map (·.rest.length)).sum + unseenArcs g t.seen

theorem ahead_enter {t : Traversal n} {v : Fin n} (fresh : v ∉ t.seen) :
    (t.enter g v).ahead g = t.ahead g := by
  have row := unseenArcs_cons g fresh
  simp only [ahead, enter, List.map_cons, List.sum_cons]
  omega

theorem step_closed_add_ahead_le (t : Traversal n) :
    (t.step g).closed.length + (t.step g).ahead g ≤ t.closed.length + t.ahead g := by
  unfold step
  split
  next => exact Nat.le_refl _
  next u below frames => simp [ahead, frames]
  next u v later below frames =>
    -- Looking at a successor takes one arc away from what lies ahead.
    have looked : ({ t with frames := ⟨u, later⟩ :: below } : Traversal n).ahead g + 1 =
        t.ahead g := by
      simp only [ahead, frames, List.map_cons, List.sum_cons, List.length_cons]
      omega
    dsimp only
    split
    next fresh =>
      rw [ahead_enter g (by simpa using fresh)]
      change t.closed.length + _ ≤ _
      omega
    next =>
      split
      next =>
        rw [List.length_append, List.length_singleton]
        change t.closed.length + 1 + ({ t with frames := ⟨u, later⟩ :: below } : Traversal n).ahead g ≤ _
        omega
      next =>
        change t.closed.length + _ ≤ _
        omega

theorem run_closed_add_ahead_le (t : Traversal n) :
    (t.run g).closed.length + (t.run g).ahead g ≤ t.closed.length + t.ahead g := by
  fun_induction run g t with
  | case1 => exact Nat.le_refl _
  | case2 t going ih => exact ih.trans (step_closed_add_ahead_le g t)

theorem visit_closed_add_ahead_le (t : Traversal n) (u : Fin n) :
    (t.visit g u).closed.length + (t.visit g u).ahead g ≤ t.closed.length + t.ahead g := by
  unfold visit
  split
  next => exact Nat.le_refl _
  next fresh =>
    have entered := run_closed_add_ahead_le g (t.enter g u)
    rwa [ahead_enter g (by simpa using fresh)] at entered

theorem foldl_visit_closed_add_ahead_le (roots : List (Fin n)) (t : Traversal n) :
    (roots.foldl (visit g) t).closed.length + (roots.foldl (visit g) t).ahead g ≤
      t.closed.length + t.ahead g := by
  induction roots generalizing t with
  | nil => exact Nat.le_refl _
  | cons u roots ih => exact (ih (t.visit g u)).trans (visit_closed_add_ahead_le g t u)

end Traversal

theorem length_closed_le : g.traverse.closed.length ≤ g.size := by
  have bound := Traversal.foldl_visit_closed_add_ahead_le g (List.finRange n) .empty
  have start : Traversal.empty.ahead g = g.size := by
    simp [Traversal.ahead, Traversal.unseenArcs, Traversal.empty, size]
  rw [start] at bound
  exact (Nat.le_add_right _ _).trans (bound.trans (by simp [Traversal.empty]))

end Digraph

namespace Cycle

variable {n : Nat}

theorem length_record_le (index : Index n) (kept : List (Kept n)) (cycle : List (Fin n)) :
    (record index kept cycle).length ≤ kept.length + 1 := by
  unfold record
  dsimp only
  split <;> simp

theorem length_repair_le (index : Index n) (g : Digraph n) (components : List (List (Fin n)))
    (kept : List (Kept n)) (u : Fin n) :
    (repair index g components kept u).length ≤ kept.length + 1 := by
  unfold repair
  dsimp only
  split
  next => exact Nat.le_succ _
  next =>
    split
    next => exact Nat.le_succ _
    next => exact length_record_le ..

theorem length_foldl_le {α β : Type} {f : List α → β → List α}
    (grows : ∀ kept x, (f kept x).length ≤ kept.length + 1) (kept : List α) (xs : List β) :
    (xs.foldl f kept).length ≤ kept.length + xs.length := by
  induction xs generalizing kept with
  | nil => exact Nat.le_refl _
  | cons x xs ih =>
    have later := ih (f kept x)
    have here := grows kept x
    rw [List.foldl_cons, List.length_cons]
    omega

theorem length_detectIn_le (index : Index n) (g : Digraph n) :
    (detectIn index g).length ≤ g.size + n := by
  have closed := Digraph.length_closed_le g
  have recorded := length_foldl_le (length_record_le index) [] g.traverse.closed
  have repaired := length_foldl_le (length_repair_le index g g.components)
    (g.traverse.closed.foldl (record index) []) (List.finRange n)
  rw [List.length_nil] at recorded
  rw [List.length_finRange] at repaired
  simp only [detectIn, List.length_map]
  omega

theorem length_detect_le (ids : List String) (references : List (String × String)) :
    (detect ids references).length ≤ references.length + ids.length := by
  have size : ((Index.ofList ids).looplessDigraph references).size ≤ references.length := by
    rw [Index.looplessDigraph, Digraph.size_ofArcs]
    exact (List.length_filter_le _ _).trans (List.length_filterMap_le _ _)
  have bound := length_detectIn_le (Index.ofList ids)
    ((Index.ofList ids).looplessDigraph references)
  rw [detect, List.length_map]
  omega

end Cycle

end FileGraph
