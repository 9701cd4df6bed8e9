import FileGraph.Graph.Query
import FileGraph.Proofs.Digraph.Loop.Path
import FileGraph.Proofs.Digraph.Shortest
import FileGraph.Proofs.Graph.Index

/-! # Shortest paths between files

Any list of nodes and any list of edges will do: ids may stand twice, and edges may be repeated, lead
from a file to itself, or to no file at all.

* `Graph.IsWalk`: a walk along edges, on ids of nodes only.
* `Graph.exists_isRow_of_isWalk`, `Graph.isWalk_of_isRow`: walks of ids are rows of numbers.
* `Graph.shortestPath_minimal`: what the shortest path between two files is.
-/

namespace FileGraph

namespace Index

variable {n : Nat} {index : Index n} {references : List (String × String)} {u v : Fin n}

theorem mem_next_digraph :
    v ∈ (index.digraph references).next u ↔
      ∃ x y, (x, y) ∈ references ∧ index.number? x = some u ∧ index.number? y = some v := by
  simp only [digraph, Digraph.ofArcs, Digraph.next_ofNext, List.mem_filterMap, arcs]
  constructor
  · rintro ⟨⟨a, b⟩, ⟨⟨x, y⟩, member, numbers⟩, tail⟩
    obtain ⟨a', hx, numbers⟩ := Option.bind_eq_some_iff.1 numbers
    obtain ⟨b', hy, numbers⟩ := Option.bind_eq_some_iff.1 numbers
    obtain ⟨rfl, rfl⟩ := Prod.mk.inj (Option.some.inj numbers)
    split at tail
    next same => exact ⟨x, y, member, same ▸ hx, Option.some.inj tail ▸ hy⟩
    next => cases tail
  · rintro ⟨x, y, member, hx, hy⟩
    exact ⟨(u, v), ⟨(x, y), member, by simp [hx, hy]⟩, if_pos rfl⟩

theorem number?_name_of_isChain {row : List (Fin n)}
    (chain : List.IsChain (fun a b => b ∈ (index.digraph references).next a) (u :: row))
    (first : index.number? (index.name u) = some u) :
    ∀ w ∈ u :: row, index.number? (index.name w) = some w := by
  induction row generalizing u with
  | nil => exact List.forall_mem_singleton.2 first
  | cons v row ih =>
    obtain ⟨arc, chain⟩ := List.isChain_cons_cons.1 chain
    obtain ⟨x, y, -, -, hy⟩ := mem_next_digraph.1 arc
    exact List.forall_mem_cons.2 ⟨first, ih chain ((name_of_number? hy).symm ▸ hy)⟩

end Index

namespace Graph

abbrev ids (g : Graph) : List String :=
  g.nodes.map (·.id)

/-- A walk from one file to another: ids of nodes, each joined to the next by an edge. -/
structure IsWalk (g : Graph) (source target : String) (walk : List String) : Prop where
  known : ∀ x ∈ walk, x ∈ g.ids
  joined : walk.IsChain fun x y => ∃ e ∈ g.edges, e.source = x ∧ e.target = y
  first : walk.head? = some source
  last : walk.getLast? = some target

variable {g : Graph} {source target : String} {walk : List String}

abbrev index (g : Graph) : Index g.ids.length :=
  Index.ofList g.ids

abbrev digraph (g : Graph) : Digraph g.ids.length :=
  g.index.digraph (g.edges.map fun e => (e.source, e.target))

theorem IsWalk.known_ends (isWalk : g.IsWalk source target walk) :
    source ∈ g.ids ∧ target ∈ g.ids :=
  ⟨isWalk.known source (List.mem_of_head? isWalk.first),
    isWalk.known target (List.mem_of_getLast? isWalk.last)⟩

theorem shortestPath_eq (g : Graph) (source target : String) :
    g.shortestPath source target =
      (((g.index.number? source).bind fun u =>
        (g.index.number? target).bind fun v => g.digraph.shortestPath? u v).getD []).map
        g.index.name := by
  have found : ∀ u v, (g.digraph.pathLoop u v).join = g.digraph.shortestPath? u v := by
    intro u v
    rw [Digraph.pathLoop_eq]
    cases g.digraph.shortestPath? u v <;> rfl
  simp only [← found]
  rfl

/-! ## Walks and rows -/

theorem mem_next_iff {u v : Fin g.ids.length} :
    v ∈ g.digraph.next u ↔ ∃ e ∈ g.edges,
      g.index.number? e.source = some u ∧ g.index.number? e.target = some v := by
  rw [Index.mem_next_digraph]
  constructor
  · rintro ⟨x, y, member, hx, hy⟩
    obtain ⟨e, given, ends⟩ := List.mem_map.1 member
    obtain ⟨rfl, rfl⟩ := Prod.mk.inj ends
    exact ⟨e, given, hx, hy⟩
  · rintro ⟨e, given, hx, hy⟩
    exact ⟨_, _, List.mem_map_of_mem given, hx, hy⟩

theorem exists_isRow_of_isWalk (isWalk : g.IsWalk source target walk) :
    ∃ u v row, g.index.number? source = some u ∧ g.index.number? target = some v ∧
      Digraph.IsRow g.digraph.next u v row ∧ row.length = walk.length := by
  induction walk generalizing source with
  | nil => cases isWalk.first
  | cons x walk ih =>
    obtain rfl : x = source := Option.some.inj isWalk.first
    obtain ⟨u, hu⟩ := Index.exists_number?_of_mem (isWalk.known x List.mem_cons_self)
    cases walk with
    | nil =>
      obtain rfl : x = target := Option.some.inj isWalk.last
      exact ⟨u, u, [u], hu, hu, ⟨List.isChain_singleton u, rfl, rfl⟩, rfl⟩
    | cons y walk =>
      obtain ⟨⟨e, given, rfl, rfl⟩, joined⟩ := List.isChain_cons_cons.1 isWalk.joined
      obtain ⟨w, v, row, hw, hv, isRow, length⟩ := ih
        ⟨fun z inside => isWalk.known z (List.mem_cons_of_mem _ inside), joined, rfl, isWalk.last⟩
      obtain ⟨later, rfl⟩ := List.head?_eq_some_iff.1 isRow.head
      have arc : w ∈ g.digraph.next u := mem_next_iff.2 ⟨e, given, hu, hw⟩
      refine ⟨u, v, u :: w :: later, hu, hv, ⟨?_, rfl, isRow.last⟩, congrArg (· + 1) length⟩
      exact List.isChain_cons_cons.2 ⟨arc, isRow.chain⟩

theorem isWalk_of_isRow {u v : Fin g.ids.length} {row : List (Fin g.ids.length)}
    (isRow : Digraph.IsRow g.digraph.next u v row) :
    g.IsWalk (g.index.name u) (g.index.name v) (row.map g.index.name) where
  known := List.forall_mem_map.2 fun w _ => Index.name_mem _ w
  joined := by
    rw [List.isChain_map]
    refine isRow.chain.imp fun a b arc => ?_
    obtain ⟨e, given, ha, hb⟩ := mem_next_iff.1 arc
    exact ⟨e, given, (Index.name_of_number? ha).symm, (Index.name_of_number? hb).symm⟩
  first := by rw [List.head?_map, isRow.head, Option.map_some]
  last := by rw [List.getLast?_map, isRow.last, Option.map_some]

/-! ## Shortest paths -/

theorem shortestPath_of_isWalk (isWalk : g.IsWalk source target walk) :
    g.IsWalk source target (g.shortestPath source target) ∧
      (g.shortestPath source target).Nodup ∧
      (g.shortestPath source target).length ≤ walk.length := by
  obtain ⟨u, v, row, hu, hv, isRow, length⟩ := exists_isRow_of_isWalk isWalk
  obtain ⟨path, found⟩ : ∃ path, g.digraph.shortestPath? u v = some path := by
    rw [← Option.ne_none_iff_exists', ne_eq, Digraph.shortestPath?_eq_none_iff]
    exact fun none => none row isRow
  obtain ⟨isRow', nodup, short⟩ := Digraph.shortest_of_shortestPath? found
  have answer : g.shortestPath source target = path.map g.index.name := by
    rw [shortestPath_eq, hu, hv, Option.bind_some, Option.bind_some, found, Option.getD_some]
  have hu' := Index.name_of_number? hu
  have hv' := Index.name_of_number? hv
  -- Names tell the nodes of the path apart, for each of them is the number of its name.
  have named : ∀ w ∈ path, g.index.number? (g.index.name w) = some w := by
    obtain ⟨later, rfl⟩ := List.head?_eq_some_iff.1 isRow'.head
    exact Index.number?_name_of_isChain isRow'.chain (hu'.symm ▸ hu)
  rw [answer]
  refine ⟨hu' ▸ hv' ▸ isWalk_of_isRow isRow', ?_, ?_⟩
  · refine (List.nodup_map_iff_inj_on nodup).2 fun a ha b hb same => ?_
    have number := named a ha
    rw [same, named b hb] at number
    exact (Option.some.inj number).symm
  · rw [List.length_map, ← length]
    exact short row isRow

theorem exists_isWalk_of_ne_nil (found : g.shortestPath source target ≠ []) :
    ∃ walk, g.IsWalk source target walk := by
  rw [shortestPath_eq] at found
  cases hu : g.index.number? source with
  | none => simp [hu] at found
  | some u =>
    cases hv : g.index.number? target with
    | none => simp [hv] at found
    | some v =>
      rw [hu, hv, Option.bind_some, Option.bind_some] at found
      cases answer : g.digraph.shortestPath? u v with
      | none => simp [answer] at found
      | some path =>
        have isWalk := isWalk_of_isRow (Digraph.shortest_of_shortestPath? answer).1
        rw [Index.name_of_number? hu, Index.name_of_number? hv] at isWalk
        exact ⟨_, isWalk⟩

theorem shortestPath_eq_nil_iff :
    g.shortestPath source target = [] ↔ ¬ ∃ walk, g.IsWalk source target walk := by
  constructor
  · rintro empty ⟨walk, isWalk⟩
    have first := (shortestPath_of_isWalk isWalk).1.first
    rw [empty] at first
    cases first
  · intro none
    by_contra filled
    exact none (exists_isWalk_of_ne_nil filled)

/-- There is no path exactly if one of the two is no node or no walk leads from one to the other.
Any other path is a walk without repeated ids, no walk is shorter, and from a file to itself it is
that file alone. Between any two nodes the loop that is run finds what a search with whole trails finds:
the links that it leaves behind never lead round in a circle. -/
theorem shortestPath_minimal (g : Graph) (source target : String) :
    let path := g.shortestPath source target
    (path = [] ↔ source ∉ g.ids ∨ target ∉ g.ids ∨ ¬ ∃ walk, g.IsWalk source target walk) ∧
      (path ≠ [] → g.IsWalk source target path ∧ path.Nodup ∧
        ∀ walk, g.IsWalk source target walk → path.length ≤ walk.length) ∧
      (source = target → source ∈ g.ids → path = [source]) ∧
      ∀ u v, g.digraph.pathLoop u v = (g.digraph.shortestPath? u v).map some ∧
        g.digraph.pathLoop u v ≠ some none := by
  intro path
  refine ⟨?_, ?_, ?_, fun u v => ⟨Digraph.pathLoop_eq _ u v, ?_⟩⟩
  · rw [shortestPath_eq_nil_iff]
    constructor
    · exact fun none => .inr (.inr none)
    · rintro (unknown | unknown | none) ⟨walk, isWalk⟩
      · exact unknown isWalk.known_ends.1
      · exact unknown isWalk.known_ends.2
      · exact none ⟨walk, isWalk⟩
  · intro filled
    obtain ⟨walk, isWalk⟩ := exists_isWalk_of_ne_nil filled
    obtain ⟨isWalk', nodup, -⟩ := shortestPath_of_isWalk isWalk
    exact ⟨isWalk', nodup, fun other isOther => (shortestPath_of_isWalk isOther).2.2⟩
  · rintro rfl known
    have alone : g.IsWalk source source [source] :=
      ⟨List.forall_mem_singleton.2 known, List.isChain_singleton _, rfl, rfl⟩
    obtain ⟨isWalk, -, short⟩ := shortestPath_of_isWalk alone
    -- A walk of one node is the node that it begins with.
    obtain ⟨later, shape⟩ := List.head?_eq_some_iff.1 isWalk.first
    rw [shape, List.length_cons, List.length_singleton] at short
    obtain rfl : later = [] := List.length_eq_zero_iff.1 (by omega)
    exact shape
  · rw [Digraph.pathLoop_eq]
    cases g.digraph.shortestPath? u v <;> simp

end Graph

end FileGraph
