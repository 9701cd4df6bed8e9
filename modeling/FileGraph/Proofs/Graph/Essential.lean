import FileGraph.Proofs.Digraph.Simple
import FileGraph.Proofs.Graph.Aggregate

/-! # Edges that detection does not need

* `Cycle.essential`: the edges between different given files, one for each pair of files.
* `Cycle.detectIn_simple`: repeated arcs of a numbered graph do not change what is detected.
* `Cycle.detect_essential`: neither do the edges that are not essential.
-/

namespace FileGraph

/-! ## Rows of a numbered graph -/

namespace Index

variable {n : Nat} {index : Index n}

/-- What a reference adds to the row of `u`, if it adds anything. -/
def successor? (index : Index n) (u : Fin n) (reference : String × String) : Option (Fin n) := do
  let tail ← index.number? reference.1
  let head ← index.number? reference.2
  if tail = u ∧ tail ≠ head then some head else none

theorem successor?_eq_some_iff {u v : Fin n} {reference : String × String} :
    index.successor? u reference = some v ↔
      index.number? reference.1 = some u ∧ index.number? reference.2 = some v ∧ u ≠ v := by
  simp only [successor?, Option.bind_eq_bind, Option.bind_eq_some_iff]
  constructor
  · rintro ⟨tail, ht, head, hh, found⟩
    split at found
    next both =>
      obtain ⟨rfl, apart⟩ := both
      obtain rfl := Option.some.inj found
      exact ⟨ht, hh, apart⟩
    next => cases found
  · rintro ⟨ht, hh, apart⟩
    exact ⟨u, ht, v, hh, if_pos ⟨rfl, apart⟩⟩

theorem looplessDigraph_eq (references : List (String × String)) :
    index.looplessDigraph references =
      .ofNext fun u => references.filterMap (index.successor? u) := by
  rw [looplessDigraph, Digraph.ofArcs]
  congr 1
  funext u
  rw [arcs, List.filter_filterMap, List.filterMap_filterMap]
  congr 1
  funext reference
  cases hx : index.number? reference.1 with
  | none => simp [successor?, hx]
  | some a =>
    cases hy : index.number? reference.2 with
    | none => simp [successor?, hx, hy]
    | some b =>
      by_cases tail : a = u <;> by_cases apart : a = b <;>
        simp_all [successor?, Option.filter]

/-- A successor of a node tells which reference added it. -/
theorem successor?_injective {u v : Fin n} {reference reference' : String × String}
    (added : index.successor? u reference = some v)
    (added' : index.successor? u reference' = some v) : reference = reference' := by
  obtain ⟨tail, head, -⟩ := successor?_eq_some_iff.1 added
  obtain ⟨tail', head', -⟩ := successor?_eq_some_iff.1 added'
  exact Prod.ext ((name_of_number? tail).symm.trans (name_of_number? tail'))
    ((name_of_number? head).symm.trans (name_of_number? head'))

end Index

/-! ## Each item once -/

theorem filterMap_eraseDups {α β : Type} [BEq α] [LawfulBEq α] [BEq β] [LawfulBEq β]
    {f : α → Option β} (injective : ∀ {a a' b}, f a = some b → f a' = some b → a = a')
    (items : List α) : items.eraseDups.filterMap f = (items.filterMap f).eraseDups := by
  induction items using List.reverseRecOn with
  | nil => rfl
  | append_singleton items a ih =>
    rw [eraseDups_append_singleton, List.filterMap_append]
    cases made : f a with
    | none =>
      rw [List.filterMap_cons_none made, List.filterMap_nil, List.append_nil, ← ih]
      split
      · rfl
      · rw [List.filterMap_append, List.filterMap_cons_none made, List.filterMap_nil,
          List.append_nil]
    | some b =>
      rw [List.filterMap_cons_some made, List.filterMap_nil, eraseDups_append_singleton, ← ih]
      -- Only `a` makes `b`, so that the one stood before exactly if the other did.
      have before : b ∈ items.filterMap f ↔ a ∈ items := by
        rw [List.mem_filterMap]
        constructor
        · rintro ⟨a', member, made'⟩
          exact injective made made' ▸ member
        · exact fun member => ⟨a, member, made⟩
      simp only [before]
      split
      · rfl
      · rw [List.filterMap_append, List.filterMap_cons_some made, List.filterMap_nil]

theorem map_eraseDupsBy {α β : Type} [BEq β] (f : α → β) (items : List α) :
    (items.eraseDupsBy fun a a' => f a == f a').map f = (items.map f).eraseDups := by
  induction size : items.length using Nat.strongRecOn generalizing items with
  | ind size ih =>
    cases items with
    | nil => rfl
    | cons a items =>
      have fewer := List.length_filter_le (fun a' => decide ((f a' == f a) = false)) items
      rw [List.eraseDupsBy_cons, List.map_cons, ih _ (by simp_all; omega) _ rfl, List.map_cons,
        List.eraseDups_cons, List.filter_map]
      congr 4
      funext a'
      simp

namespace Cycle

variable {n : Nat} {index : Index n}

/-! ## Numbered graphs -/

theorem foldl_record_of_thinned {more less : List (List (Fin n))}
    (thinned : Digraph.Thinned more less) :
    less.foldl (record index) [] = more.foldl (record index) [] := by
  induction thinned with
  | nil => rfl
  | both cycle _ ih => rw [List.foldl_append, List.foldl_append, ih]
  | @again more less cycle _ member ih =>
    have known : key index cycle ∈ (more.foldl (record index) []).map (·.key) :=
      mem_keys_foldl_record.2 (Or.inr (List.mem_map_of_mem member))
    rw [List.foldl_append, ih, List.foldl_cons, List.foldl_nil, record_of_mem known]

theorem detectIn_simple (index : Index n) (g : Digraph n) :
    detectIn index g.simple = detectIn index g := by
  have same : repair index g.simple g.components = repair index g g.components := by
    funext kept u
    simp only [repair, Digraph.cycleThrough?_simple]
  unfold detectIn
  rw [Digraph.components_simple, same,
    foldl_record_of_thinned (Digraph.shadows_traverse g).closed]

/-! ## Edges -/

/-- The edges that join different given files; of those between the same two files, the first. -/
def essential (ids : List String) (edges : List Edge) : List Edge :=
  (edges.filter fun e => ids.contains e.source && ids.contains e.target && e.source != e.target)
    |>.eraseDupsBy fun e f => e.ends == f.ends

theorem map_ends_essential (ids : List String) (edges : List Edge) :
    (essential ids edges).map (·.ends) =
      ((edges.map (·.ends)).filter fun ends =>
        ids.contains ends.1 && ids.contains ends.2 && ends.1 != ends.2).eraseDups := by
  rw [essential, map_eraseDupsBy, List.filter_map]
  rfl

theorem joins_of_successor? {ids : List String} {u v : Fin ids.length} {ends : String × String}
    (added : (Index.ofList ids).successor? u ends = some v) :
    ends.1 ∈ ids ∧ ends.2 ∈ ids ∧ ends.1 ≠ ends.2 := by
  obtain ⟨tail, head, apart⟩ := Index.successor?_eq_some_iff.1 added
  refine ⟨Index.name_of_number? tail ▸ Index.name_mem ids u,
    Index.name_of_number? head ▸ Index.name_mem ids v, fun same => apart ?_⟩
  rw [same, head] at tail
  exact (Option.some.inj tail).symm

/-- In the rows of the essential edges each successor stands once. -/
theorem looplessDigraph_essential (ids : List String) (edges : List Edge) :
    (Index.ofList ids).looplessDigraph ((essential ids edges).map (·.ends)) =
      ((Index.ofList ids).looplessDigraph (edges.map (·.ends))).simple := by
  -- What is left out adds nothing to any row.
  have passes : ∀ u, ((edges.map (·.ends)).filter fun ends =>
      ids.contains ends.1 && ids.contains ends.2 && ends.1 != ends.2).filterMap
        ((Index.ofList ids).successor? u) =
          (edges.map (·.ends)).filterMap ((Index.ofList ids).successor? u) := by
    intro u
    rw [List.filterMap_filter]
    congr 1
    funext ends
    split
    next => rfl
    next noise =>
      rw [eq_comm, Option.eq_none_iff_forall_ne_some]
      intro v added
      exact noise (by simpa [and_assoc] using joins_of_successor? added)
  rw [Digraph.simple, Index.looplessDigraph_eq, Index.looplessDigraph_eq]
  congr 1
  funext u
  rw [Digraph.next_ofNext, map_ends_essential,
    filterMap_eraseDups Index.successor?_injective, passes]

/-- Edges of a file to itself, edges that name a file that is not given, and edges between files that
an earlier edge joins do not change what is detected. -/
theorem detect_essential (ids : List String) (edges : List Edge) :
    detect ids ((essential ids edges).map (·.ends)) = detect ids (edges.map (·.ends)) := by
  unfold detect
  dsimp only
  rw [looplessDigraph_essential, detectIn_simple]

end Cycle

end FileGraph
