import FileGraph.Proofs.Digraph.Simple

/-! # A search in the depth, by recursion

A search with a stack of frames closes the same cycles, in the same order, as the recursion that it
stands for.

* `descend`: visits the nodes of a row, with all that is below them, one after the other.
* `recursiveCycles`: the cycles that the recursion emits when the nodes of a graph are tried in
  ascending order.
* `Traversal.exists_run_frame`: a search deals with the frame on top of its stack as the recursion deals
  with the row of the frame, whatever lies below.
* `closed_foldl_visit`, `closed_traverse`: what whole searches close.
-/

namespace FileGraph.Digraph

variable {n : Nat} {g : Digraph n}

/-! ## The recursion -/

/-- What a part of the recursion leaves behind. -/
structure Visits (n : Nat) where
  /-- The nodes visited by then, the latest first. -/
  visited : List (Fin n)
  /-- The cycles emitted on the way, in order. -/
  cycles : List (List (Fin n))
  deriving DecidableEq, Repr

/-- The recursion, with the reason why it ends: a part of it leaves no more nodes to visit than there
were before. -/
def descendWithin (g : Digraph n) (path visited : List (Fin n)) :
    List (Fin n) → { r : Visits n // unseen r.visited ≤ unseen visited }
  | [] => ⟨⟨visited, []⟩, Nat.le_refl _⟩
  | v :: later =>
    if known : visited.contains v then
      let ⟨rest, fewer⟩ := descendWithin g path visited later
      let closed := if path.contains v then [path.dropWhile (· != v)] else []
      ⟨⟨rest.visited, closed ++ rest.cycles⟩, fewer⟩
    else
      let ⟨first, fewer⟩ := descendWithin g (path ++ [v]) (v :: visited) (g.next v)
      let ⟨rest, fewer'⟩ := descendWithin g path first.visited later
      ⟨⟨rest.visited, first.cycles ++ rest.cycles⟩, by
        have := unseen_cons (mt List.contains_iff_mem.2 known)
        dsimp only
        omega⟩
termination_by row => (unseen visited, row.length)
decreasing_by
  · exact Prod.Lex.right _ (by simp)
  · have := unseen_cons (mt List.contains_iff_mem.2 known)
    exact Prod.Lex.left _ _ (by omega)
  · have := unseen_cons (mt List.contains_iff_mem.2 known)
    exact Prod.Lex.left _ _ (by omega)

/-- Deals with the successors of the last node of a path, one after the other. -/
def descend (g : Digraph n) (path visited row : List (Fin n)) : Visits n :=
  (descendWithin g path visited row).1

/-- Visits a node: it is marked and put on the path while its successors are dealt with. -/
def descendTo (g : Digraph n) (path visited : List (Fin n)) (u : Fin n) : Visits n :=
  descend g (path ++ [u]) (u :: visited) (g.next u)

section Equations

variable (g : Digraph n) (path : List (Fin n)) {visited : List (Fin n)} {v : Fin n}
  (later : List (Fin n))

@[simp] theorem descend_nil (visited : List (Fin n)) : descend g path visited [] = ⟨visited, []⟩ := by
  rw [descend, descendWithin]

theorem descend_cons_of_not_mem (fresh : v ∉ visited) : descend g path visited (v :: later) =
    let first := descendTo g path visited v
    let rest := descend g path first.visited later
    ⟨rest.visited, first.cycles ++ rest.cycles⟩ := by
  rw [descend, descendWithin, dif_neg (mt List.contains_iff_mem.1 fresh)]
  rfl

theorem descend_cons_of_mem_path (known : v ∈ visited) (onPath : v ∈ path) :
    descend g path visited (v :: later) =
      let rest := descend g path visited later
      ⟨rest.visited, path.dropWhile (· != v) :: rest.cycles⟩ := by
  rw [descend, descendWithin, dif_pos (List.contains_iff_mem.2 known)]
  simp only [if_pos (List.contains_iff_mem.2 onPath)]
  rfl

theorem descend_cons_of_not_mem_path (known : v ∈ visited) (off : v ∉ path) :
    descend g path visited (v :: later) = descend g path visited later := by
  rw [descend, descendWithin, dif_pos (List.contains_iff_mem.2 known)]
  simp only [if_neg (mt List.contains_iff_mem.1 off)]
  rfl

end Equations

/-- Induction along the recursion: a part of it comes down to the parts that it calls. -/
theorem descend_induction (g : Digraph n)
    {motive : List (Fin n) → List (Fin n) → List (Fin n) → Prop}
    (nil : ∀ path visited, motive path visited [])
    (fresh : ∀ path visited v later, v ∉ visited →
      motive (path ++ [v]) (v :: visited) (g.next v) →
      motive path (descendTo g path visited v).visited later → motive path visited (v :: later))
    (known : ∀ path visited v later, v ∈ visited →
      motive path visited later → motive path visited (v :: later))
    (path visited row : List (Fin n)) : motive path visited row := by
  induction path, visited, row using descendWithin.induct g with
  | case1 path visited => exact nil path visited
  | case2 path visited v later visited' _ _ _ outer =>
    exact known path visited v later (List.contains_iff_mem.1 visited') outer
  | case3 path visited v later unvisited first _ called _ _ _ inner outer =>
    refine fresh path visited v later (mt List.contains_iff_mem.2 unvisited) inner ?_
    rwa [descendTo, descend, called]

theorem subset_descend (g : Digraph n) (path visited row : List (Fin n)) :
    visited ⊆ (descend g path visited row).visited := by
  induction path, visited, row using descend_induction g with
  | nil path visited =>
    rw [descend_nil]
    exact List.Subset.refl visited
  | fresh path visited v later unvisited inner outer =>
    rw [descend_cons_of_not_mem g path later unvisited]
    exact List.Subset.trans (List.Subset.trans (List.subset_cons_self v visited) inner) outer
  | known path visited v later visited' outer =>
    by_cases onPath : v ∈ path
    · rwa [descend_cons_of_mem_path g path later visited' onPath]
    · rwa [descend_cons_of_not_mem_path g path later visited' onPath]

/-- The cycles that the recursion emits. The nodes are tried in ascending order, with nothing on the
path. -/
def recursiveCycles (g : Digraph n) : List (List (Fin n)) :=
  (descend g [] [] (List.finRange n)).cycles

/-! ## The search with a stack -/

namespace Traversal

/-- Both ways of cutting off the part of a path behind a node, the path being given from its end. -/
theorem slice_eq_dropWhile {path : List (Fin n)} (nodup : path.Nodup) {v : Fin n}
    (onPath : v ∈ path) : slice path v = path.reverse.dropWhile (· != v) := by
  obtain ⟨above, beneath, rfl⟩ := List.append_of_mem onPath
  obtain ⟨-, nodup', apart⟩ := List.nodup_append.1 nodup
  have above_ne : ∀ w ∈ above, (w != v) = true := by
    intro w member
    exact bne_iff_ne.2 (apart w member v List.mem_cons_self)
  have beneath_ne : ∀ w ∈ beneath.reverse, (w != v) = true := by
    intro w member
    refine bne_iff_ne.2 fun same => (List.nodup_cons.1 nodup').1 ?_
    exact same ▸ List.mem_reverse.1 member
  have turned : (above ++ v :: beneath).reverse = beneath.reverse ++ v :: above.reverse := by simp
  rw [slice, List.takeWhile_append_of_pos above_ne, turned,
    List.dropWhile_append_of_pos beneath_ne]
  simp

/-- A search deals with the frame on top of its stack as the recursion deals with the row of the
frame, whatever lies below. -/
theorem exists_run_frame (g : Digraph n) {u : Fin n} {path visited row : List (Fin n)}
    {below : List (Frame n)} (closed : List (List (Fin n))) (finished : List (Fin n))
    (onPath : path = (u :: below.map (·.node)).reverse) (nodup : path.Nodup)
    (seen : path ⊆ visited) :
    ∃ finished', run g ⟨visited, ⟨u, row⟩ :: below, closed, finished⟩ =
      run g ⟨(descend g path visited row).visited, below,
        closed ++ (descend g path visited row).cycles, finished'⟩ := by
  induction path, visited, row using descend_induction g
    generalizing u below closed finished with
  | nil path visited =>
    refine ⟨u :: finished, ?_⟩
    rw [run_of_frames_ne_nil (List.cons_ne_nil _ _), step_leave rfl, descend_nil, List.append_nil]
  | fresh path visited v later unvisited inner outer =>
    -- The search goes down to `v`, comes back, and goes on with the rest of the row.
    have nodup' : (path ++ [v]).Nodup := by
      refine List.nodup_append.2 ⟨nodup, List.nodup_singleton v, ?_⟩
      rintro w member _ last rfl
      exact unvisited (List.mem_singleton.1 last ▸ seen member)
    have seen' : path ++ [v] ⊆ v :: visited := by
      intro w member
      rw [List.mem_append, List.mem_singleton] at member
      exact member.elim (fun before => List.mem_cons_of_mem v (seen before))
        fun last => last ▸ List.mem_cons_self
    have onPath' : path ++ [v] = (v :: (⟨u, later⟩ :: below : List (Frame n)).map (·.node)).reverse := by
      rw [onPath]
      simp
    obtain ⟨finished₁, down⟩ := inner closed finished onPath' nodup' seen'
    have back := List.Subset.trans seen (List.Subset.trans (List.subset_cons_self v visited)
      (subset_descend g (path ++ [v]) (v :: visited) (g.next v)))
    obtain ⟨finished₂, rest⟩ := outer (closed ++ (descendTo g path visited v).cycles) finished₁
      onPath nodup back
    refine ⟨finished₂, ?_⟩
    rw [run_of_frames_ne_nil (List.cons_ne_nil _ _), step_enter rfl unvisited, enter, down]
    exact rest.trans (by rw [descend_cons_of_not_mem g path later unvisited, List.append_assoc])
  | known path visited v later visited' outer =>
    rw [run_of_frames_ne_nil (List.cons_ne_nil _ _)]
    have path' : (⟨visited, ⟨u, v :: later⟩ :: below, closed, finished⟩ : Traversal n).path =
        path.reverse := by
      rw [onPath, List.reverse_reverse]
      rfl
    by_cases member : v ∈ path
    · obtain ⟨finished', rest⟩ := outer (closed ++ [path.dropWhile (· != v)]) finished onPath nodup seen
      refine ⟨finished', ?_⟩
      rw [step_close rfl visited' (by simpa [path'] using member), path',
        slice_eq_dropWhile (List.nodup_reverse.2 nodup) (List.mem_reverse.2 member),
        List.reverse_reverse, rest, descend_cons_of_mem_path g path later visited' member,
        List.append_assoc, List.singleton_append]
    · obtain ⟨finished', rest⟩ := outer closed finished onPath nodup seen
      refine ⟨finished', ?_⟩
      rw [step_pass rfl visited' (by simpa [path'] using member), rest,
        descend_cons_of_not_mem_path g path later visited' member]

theorem visit_of_not_mem {t : Traversal n} (idle : t.frames = []) {u : Fin n} (fresh : u ∉ t.seen) :
    (t.visit g u).closed = t.closed ++ (descendTo g [] t.seen u).cycles ∧
      (t.visit g u).seen = (descendTo g [] t.seen u).visited := by
  obtain ⟨seen, frames, closed, finished⟩ := t
  obtain rfl : frames = [] := idle
  have seen_cons : [u] ⊆ u :: seen := List.cons_subset_cons u (List.nil_subset seen)
  obtain ⟨finished', all⟩ : ∃ finished', run g ⟨u :: seen, [⟨u, g.next u⟩], closed, finished⟩ =
      run g ⟨(descendTo g [] seen u).visited, [], closed ++ (descendTo g [] seen u).cycles,
        finished'⟩ :=
    exists_run_frame g closed finished rfl (List.nodup_singleton u) seen_cons
  have entered : (⟨seen, [], closed, finished⟩ : Traversal n).visit g u =
      run g ⟨u :: seen, [⟨u, g.next u⟩], closed, finished⟩ := by
    rw [visit, if_neg (by simpa using fresh)]
    rfl
  rw [entered, all, run, if_pos rfl]
  exact ⟨rfl, rfl⟩

end Traversal

theorem closed_foldl_visit (roots : List (Fin n)) {t : Traversal n} (idle : t.frames = []) :
    (roots.foldl (Traversal.visit g) t).closed = t.closed ++ (descend g [] t.seen roots).cycles := by
  induction roots generalizing t with
  | nil => rw [List.foldl_nil, descend_nil, List.append_nil]
  | cons u roots ih =>
    rw [List.foldl_cons, ih (Traversal.frames_visit idle u)]
    by_cases known : u ∈ t.seen
    · have same : t.visit g u = t := if_pos (List.contains_iff_mem.2 known)
      rw [same, descend_cons_of_not_mem_path g [] roots known List.not_mem_nil]
    · obtain ⟨closed, seen⟩ := Traversal.visit_of_not_mem (g := g) idle known
      rw [closed, seen, descend_cons_of_not_mem g [] roots known, List.append_assoc]

theorem closed_traverse (g : Digraph n) : g.traverse.closed = g.recursiveCycles :=
  closed_foldl_visit (List.finRange n) rfl

end FileGraph.Digraph
