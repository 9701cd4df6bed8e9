/-! # Directed graphs on numbered nodes

* `Digraph n`: for each of the nodes `0, …, n - 1` the row of its successors. A successor may stand
  in a row more than once, and the order of a row is kept.
* `Digraph.ofArcs`: the graph with given arcs.
* `Digraph.reverse`: the graph with all arcs turned round.
* `Digraph.Reaches`: one node can be got to from another.
* `unseen`: how many nodes a search has not seen yet, the quantity that ends every search.
-/

namespace FileGraph

/-- A directed graph on `n` numbered nodes. -/
structure Digraph (n : Nat) where
  rows : Vector (List (Fin n)) n

namespace Digraph

variable {n : Nat}

def next (g : Digraph n) (u : Fin n) : List (Fin n) :=
  g.rows[u]

def ofNext (next : Fin n → List (Fin n)) : Digraph n :=
  ⟨Vector.ofFn next⟩

@[simp] theorem next_ofNext (f : Fin n → List (Fin n)) (u : Fin n) : (ofNext f).next u = f u := by
  simp [next, ofNext]

/-- The graph with given arcs, in whose rows the arcs keep their order. -/
def ofArcs (arcs : List (Fin n × Fin n)) : Digraph n :=
  ofNext fun u => arcs.filterMap fun (tail, head) => if tail = u then some head else none

/-- The nodes that have `v` as a successor, in ascending order. -/
def predecessors (g : Digraph n) (v : Fin n) : List (Fin n) :=
  (List.finRange n).filter fun u => (g.next u).contains v

def reverse (g : Digraph n) : Digraph n :=
  ofNext g.predecessors

theorem mem_next_reverse {g : Digraph n} {u v : Fin n} :
    u ∈ g.reverse.next v ↔ v ∈ g.next u := by
  simp [reverse, predecessors, List.mem_finRange]

/-- `g.Reaches u v`: along arcs one gets from `u` to `v`, perhaps in no step at all. -/
inductive Reaches (g : Digraph n) : Fin n → Fin n → Prop where
  | refl (u : Fin n) : Reaches g u u
  | step {u v w : Fin n} : Reaches g u v → w ∈ g.next v → Reaches g u w

/-! ## Counting what is left to see -/

/-- How many nodes do not stand in a list of seen ones. -/
def unseen (seen : List (Fin n)) : Nat :=
  (List.finRange n).countP fun v => !seen.contains v

theorem unseen_cons {seen : List (Fin n)} {v : Fin n} (h : v ∉ seen) :
    unseen (v :: seen) + 1 = unseen seen := by
  have count : ∀ nodes : List (Fin n), nodes.Nodup →
      nodes.countP (fun u => !(v :: seen).contains u) + (if v ∈ nodes then 1 else 0) =
        nodes.countP fun u => !seen.contains u := by
    intro nodes distinct
    induction nodes with
    | nil => rfl
    | cons u later ih =>
      have ih := ih (List.nodup_cons.1 distinct).2
      have hu := (List.nodup_cons.1 distinct).1
      by_cases huv : u = v
      · subst huv
        simp only [hu, ↓reduceIte, Nat.add_zero] at ih
        simpa [h] using ih
      · have hvu : v ≠ u := fun e => huv e.symm
        by_cases hs : u ∈ seen <;>
          simp [huv, hvu, hs] at ih ⊢ <;> omega
  have := count (List.finRange n) (List.nodup_finRange n)
  simpa [unseen, List.mem_finRange] using this

end Digraph

end FileGraph
