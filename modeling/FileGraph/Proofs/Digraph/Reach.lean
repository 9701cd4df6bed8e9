import FileGraph.Digraph
import Mathlib.Data.List.Chain
import Mathlib.Data.List.Cycle
import Mathlib.Data.List.Nodup

/-! # Reaching nodes, and cycles

* `Digraph.Reaches`: the laws of a path, from either end.
* `Digraph.Mutual`: two nodes that can be got to from each other.
* `Digraph.Loopless`: no node is its own successor.
* `Digraph.IsCycle`: a list of nodes each of which is followed by a successor, the last by the
  first.
-/

namespace FileGraph.Digraph

variable {n : Nat} {g : Digraph n}

/-! ## Reaching -/

theorem Reaches.single {u v : Fin n} (arc : v ∈ g.next u) : g.Reaches u v :=
  .step (.refl u) arc

theorem Reaches.trans {u v w : Fin n} (first : g.Reaches u v) (second : g.Reaches v w) :
    g.Reaches u w := by
  induction second with
  | refl => exact first
  | step _ arc ih => exact .step ih arc

theorem Reaches.head {u v w : Fin n} (arc : v ∈ g.next u) (path : g.Reaches v w) :
    g.Reaches u w :=
  (Reaches.single arc).trans path

theorem Reaches.exists_last {u v : Fin n} (path : g.Reaches u v) (apart : u ≠ v) :
    ∃ w, g.Reaches u w ∧ v ∈ g.next w := by
  cases path with
  | refl => exact absurd rfl apart
  | step path arc => exact ⟨_, path, arc⟩

/-- What holds of the end of a path, and of a node if it holds of a successor from which the path
goes on, holds of its beginning. -/
theorem Reaches.head_induction {v : Fin n} {p : Fin n → Prop} (last : p v)
    (step : ∀ u w, w ∈ g.next u → g.Reaches w v → p w → p u) {u : Fin n} (path : g.Reaches u v) :
    p u := by
  induction path with
  | refl => exact last
  | @step w x path arc ih =>
    -- Paths grow at their ends, so the end moves back by an arc, and `p` holds there by `step`.
    apply ih
    · exact step w x arc (.refl x) last
    · intro u y first rest holds
      exact step u y first (.step rest arc) holds

theorem reaches_reverse_iff {u v : Fin n} : g.reverse.Reaches u v ↔ g.Reaches v u := by
  constructor
  · intro path
    induction path with
    | refl => exact .refl u
    | step _ arc ih => exact .head (mem_next_reverse.1 arc) ih
  · intro path
    induction path with
    | refl => exact .refl v
    | step _ arc ih => exact .head (mem_next_reverse.2 arc) ih

/-- Nodes that can be got to from each other. -/
def Mutual (g : Digraph n) (u v : Fin n) : Prop :=
  g.Reaches u v ∧ g.Reaches v u

theorem Mutual.refl (u : Fin n) : g.Mutual u u :=
  ⟨.refl u, .refl u⟩

theorem Mutual.symm {u v : Fin n} (h : g.Mutual u v) : g.Mutual v u :=
  ⟨h.2, h.1⟩

theorem Mutual.trans {u v w : Fin n} (first : g.Mutual u v) (second : g.Mutual v w) :
    g.Mutual u w :=
  ⟨first.1.trans second.1, second.2.trans first.2⟩

/-! ## Rows of nodes -/

theorem reaches_of_isChain {u v : Fin n} {row : List (Fin n)}
    (chain : List.IsChain (fun a b => b ∈ g.next a) (u :: row)) (member : v ∈ u :: row) :
    g.Reaches u v := by
  induction row generalizing u with
  | nil =>
    obtain rfl := List.mem_singleton.1 member
    exact .refl v
  | cons w row ih =>
    rw [List.isChain_cons_cons] at chain
    cases List.mem_cons.1 member with
    | inl same => exact same ▸ .refl v
    | inr member => exact .head chain.1 (ih chain.2 member)

theorem reaches_head_of_isChain {u v : Fin n} {row : List (Fin n)}
    (chain : List.IsChain (fun a b => a ∈ g.next b) (u :: row)) (member : v ∈ u :: row) :
    g.Reaches v u := by
  induction row generalizing u with
  | nil =>
    obtain rfl := List.mem_singleton.1 member
    exact .refl v
  | cons w row ih =>
    rw [List.isChain_cons_cons] at chain
    cases List.mem_cons.1 member with
    | inl same => exact same ▸ .refl v
    | inr member => exact .step (ih chain.2 member) chain.1

/-! ## Cycles -/

theorem exists_mem_ne {α : Type} {members : List α} (nodup : members.Nodup)
    (two : 2 ≤ members.length) (x : α) : ∃ y ∈ members, y ≠ x := by
  have several : members ≠ [x] := by
    intro alone
    simp [alone] at two
  cases (nodup.ne_singleton_iff x).1 several with
  | inl none => simp [none] at two
  | inr other => exact other

/-- No node is its own successor. -/
def Loopless (g : Digraph n) : Prop :=
  ∀ u, u ∉ g.next u

/-- Different nodes, each followed by one of its successors, and the last one by the first. -/
structure IsCycle (g : Digraph n) (cycle : List (Fin n)) : Prop where
  ne_nil : cycle ≠ []
  nodup : cycle.Nodup
  chain : List.IsChain (fun u v => v ∈ g.next u) (cycle ++ cycle.take 1)

namespace IsCycle

variable {cycle : List (Fin n)}

theorem of_row {u : Fin n} {row : List (Fin n)} (distinct : (u :: row).Nodup)
    (chain : List.IsChain (fun a b => b ∈ g.next a) (u :: row))
    (back : ∀ v ∈ (u :: row).getLast?, u ∈ g.next v) : g.IsCycle (u :: row) where
  ne_nil := List.cons_ne_nil u row
  nodup := distinct
  chain := by
    refine List.isChain_append.2 ⟨chain, List.isChain_singleton u, ?_⟩
    intro v last w first
    obtain rfl : u = w := by simpa using first
    exact back v last

/-- The node at the place behind that of `u`, counted round the cycle, succeeds `u`. -/
theorem mem_next_of_getElem? (h : g.IsCycle cycle) {i : Nat} {u v : Fin n}
    (here : cycle[i]? = some u) (behind : cycle[(i + 1) % cycle.length]? = some v) :
    v ∈ g.next u := by
  obtain ⟨bound, rfl⟩ := List.getElem?_eq_some_iff.1 here
  obtain ⟨bound', rfl⟩ := List.getElem?_eq_some_iff.1 behind
  have chain := List.isChain_iff_getElem.1 h.chain i (by
    simp only [List.length_append, List.length_take]
    omega)
  rw [List.getElem_append_left bound] at chain
  -- Behind the last node stands the first one once more.
  by_cases inside : i + 1 < cycle.length
  · rw [List.getElem_append_left inside] at chain
    simpa only [Nat.mod_eq_of_lt inside] using chain
  · have last : i + 1 = cycle.length := by omega
    rw [List.getElem_append_right (by omega), List.getElem_take] at chain
    simpa only [last, Nat.sub_self, Nat.mod_self] using chain

theorem exists_next (h : g.IsCycle cycle) {u : Fin n} (member : u ∈ cycle) :
    ∃ v, v ∈ g.next u := by
  obtain ⟨i, here⟩ := List.mem_iff_getElem?.1 member
  obtain ⟨bound, -⟩ := List.getElem?_eq_some_iff.1 here
  have bound' : (i + 1) % cycle.length < cycle.length := Nat.mod_lt _ (by omega)
  exact ⟨_, h.mem_next_of_getElem? here (List.getElem?_eq_getElem bound')⟩

theorem two_le_length (h : g.IsCycle cycle) (loopless : g.Loopless) : 2 ≤ cycle.length := by
  match cycle, h with
  | [], h => exact absurd rfl h.ne_nil
  | [u], h =>
    have arc : u ∈ g.next u := h.mem_next_of_getElem? (i := 0) rfl (by simp)
    exact absurd arc (loopless u)
  | _ :: _ :: _, _ => simp

theorem of_isRotated {cycle' : List (Fin n)} (h : g.IsCycle cycle) (turned : cycle ~r cycle') :
    g.IsCycle cycle' := by
  have round : ∀ row : List (Fin n), List.IsChain (fun u v => v ∈ g.next u) (row ++ row.take 1) ↔
      (row : Cycle (Fin n)).Chain fun u v => v ∈ g.next u := by
    intro row
    cases row with
    | nil => simp
    | cons u row => exact (Cycle.chain_coe_cons ..).symm
  refine ⟨?_, turned.nodup_iff.1 h.nodup, ?_⟩
  · rintro rfl
    exact h.ne_nil (List.isRotated_nil_iff.1 turned)
  · rw [round, ← Cycle.coe_eq_coe.2 turned]
    exact (round cycle).1 h.chain

theorem exists_cons (h : g.IsCycle cycle) {u : Fin n} (member : u ∈ cycle) :
    ∃ row, cycle ~r u :: row ∧ g.IsCycle (u :: row) := by
  obtain ⟨before, behind, rfl⟩ := List.append_of_mem member
  have turned : before ++ u :: behind ~r u :: (behind ++ before) := List.isRotated_append
  exact ⟨behind ++ before, turned, h.of_isRotated turned⟩

theorem mutual_of_mem (h : g.IsCycle cycle) {u v : Fin n} (hu : u ∈ cycle) (hv : v ∈ cycle) :
    g.Mutual u v := by
  have reaches : ∀ {u v : Fin n}, u ∈ cycle → v ∈ cycle → g.Reaches u v := by
    intro u v hu hv
    obtain ⟨row, turned, fromHere⟩ := h.exists_cons hu
    exact reaches_of_isChain fromHere.chain.left_of_append (turned.mem_iff.1 hv)
  exact ⟨reaches hu hv, reaches hv hu⟩

end IsCycle

end FileGraph.Digraph
