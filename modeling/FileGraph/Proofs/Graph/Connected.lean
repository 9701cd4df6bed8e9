import FileGraph.Graph.Query
import FileGraph.Proofs.Graph.Counters
import FileGraph.Proofs.Graph.Modules
import FileGraph.Proofs.Text.ByteOrder

/-! # The files joined to a file

* `Text.pairwise_orderedSet`, `Text.orderedSet_perm`: an ordered set ascends, and texts that are
  different are all in it.
* `Graph.mem_connected_iff`: the files on one side of a file.
* `Graph.mem_connected_both`, `Graph.length_connected_both`: the files on both sides, those that
  stand on either side counted once.
* `Graph.connected_assemble`: the files joined to a file against the numbers that its node keeps.
-/

namespace FileGraph

/-! ## Ordered sets -/

namespace Text

variable {text : String} {set texts : List String}

theorem pairwise_insertOrdered (ordered : set.Pairwise (· < ·)) (text : String) :
    (insertOrdered text set).Pairwise (· < ·) := by
  fun_induction insertOrdered text set with
  | case1 => exact List.pairwise_singleton _ _
  | case2 first later before =>
      obtain ⟨least, -⟩ := List.pairwise_cons.1 ordered
      refine List.pairwise_cons.2 ⟨fun x member => ?_, ordered⟩
      cases List.mem_cons.1 member with
      | inl here => exact here ▸ before
      | inr there => exact String.lt_trans before (least x there)
  | case3 => exact ordered
  | case4 first later notBefore apart ih =>
      obtain ⟨least, ordered⟩ := List.pairwise_cons.1 ordered
      refine List.pairwise_cons.2 ⟨fun x member => ?_, ih ordered⟩
      cases mem_insertOrdered.1 member with
      | inl here => exact here ▸ lt_of_le_of_ne (not_lt.1 notBefore) (Ne.symm apart)
      | inr there => exact least x there

theorem pairwise_orderedSet (texts : List String) : (orderedSet texts).Pairwise (· < ·) := by
  have general : ∀ set : List String, set.Pairwise (· < ·) →
      (texts.foldl (fun set text => insertOrdered text set) set).Pairwise (· < ·) := by
    induction texts with
    | nil => exact fun _ ordered => ordered
    | cons text later ih => exact fun set ordered => ih _ (pairwise_insertOrdered ordered text)
  exact general [] .nil

theorem nodup_orderedSet (texts : List String) : (orderedSet texts).Nodup :=
  (pairwise_orderedSet texts).imp ne_of_lt

theorem orderedSet_perm (nodup : texts.Nodup) : (orderedSet texts).Perm texts :=
  (List.perm_ext_iff_of_nodup (nodup_orderedSet texts) nodup).2 fun _ => mem_orderedSet

theorem orderedSet_eq {expected : List String} (ordered : expected.Pairwise (· < ·))
    (same : ∀ x, x ∈ texts ↔ x ∈ expected) : orderedSet texts = expected := by
  have perm : (orderedSet texts).Perm expected :=
    (List.perm_ext_iff_of_nodup (nodup_orderedSet texts) (ordered.imp ne_of_lt)).2 fun x =>
      mem_orderedSet.trans (same x)
  refine perm.eq_of_pairwise (fun x y _ _ before after => ?_) (pairwise_orderedSet texts) ordered
  exact absurd after (String.lt_asymm before)

end Text

/-! ## One side of a file -/

def Side.direction : Side → Direction
  | .dependencies => .dependencies
  | .dependents => .dependents

theorem Edge.neighbours_direction (side : Side) (x : String) (e : Edge) :
    e.neighbours side.direction x = if e.at side == x then [e.opposite side] else [] := by
  cases side with
  | dependencies => simp [neighbours, Side.direction, Direction.followsOut, Direction.followsIn,
      Edge.at, opposite]
  | dependents => simp [neighbours, Side.direction, Direction.followsOut, Direction.followsIn,
      Edge.at, opposite]

theorem flatMap_neighbours (side : Side) (x : String) (edges : List Edge) :
    edges.flatMap (·.neighbours side.direction x) =
      (edges.filter (·.at side == x)).map (·.opposite side) := by
  induction edges with
  | nil => rfl
  | cons e later ih =>
      rw [List.flatMap_cons, Edge.neighbours_direction, ih, List.filter_cons]
      split <;> rfl

theorem countP_or_add_countP_and {α : Type} (p q : α → Bool) (items : List α) :
    items.countP (fun x => p x || q x) + items.countP (fun x => p x && q x) =
      items.countP p + items.countP q := by
  induction items with
  | nil => rfl
  | cons x later ih =>
      simp only [List.countP_cons]
      cases p x <;> cases q x <;> simp <;> omega

theorem length_eq_countP {answer ids : List String} (nodup : answer.Nodup) (distinct : ids.Nodup)
    (inside : answer ⊆ ids) : answer.length = ids.countP (answer.contains ·) := by
  have perm : answer.Perm (ids.filter (answer.contains ·)) := by
    refine (List.perm_ext_iff_of_nodup nodup (distinct.filter _)).2 fun x => ?_
    rw [List.mem_filter, List.contains_iff_mem]
    exact ⟨fun member => ⟨inside member, member⟩, fun both => both.2⟩
  rw [perm.length_eq, List.countP_eq_length_filter]

namespace Graph

variable {g : Graph} {x y : String}

theorem mem_connected_iff (side : Side) :
    y ∈ g.connected x side.direction ↔ ∃ e ∈ g.edges, e.at side = x ∧ e.opposite side = y := by
  rw [connected, Text.mem_orderedSet, flatMap_neighbours]
  simp [and_assoc]

theorem mem_connected_dependencies :
    y ∈ g.connected x .dependencies ↔ (x, y) ∈ g.edges.map (·.ends) := by
  refine (mem_connected_iff .dependencies).trans ?_
  simp [Edge.ends, Edge.at, Edge.opposite]

theorem mem_connected_dependents :
    y ∈ g.connected x .dependents ↔ (y, x) ∈ g.edges.map (·.ends) := by
  refine (mem_connected_iff .dependents).trans ?_
  simp [Edge.ends, Edge.at, Edge.opposite, and_comm]

theorem mem_connected_both :
    y ∈ g.connected x .both ↔ y ∈ g.connected x .dependencies ∨ y ∈ g.connected x .dependents := by
  simp only [connected, Text.mem_orderedSet, List.mem_flatMap]
  rw [← exists_or]
  refine exists_congr fun e => ?_
  rw [← and_or_left, Edge.neighbours, Edge.neighbours, Edge.neighbours]
  simp [Direction.followsOut, Direction.followsIn]

theorem connected_eq {direction : Direction} {expected : List String}
    (ordered : expected.Pairwise (· < ·)) (same : ∀ y, y ∈ g.connected x direction ↔ y ∈ expected) :
    g.connected x direction = expected :=
  Text.orderedSet_eq ordered fun y => Text.mem_orderedSet.symm.trans (same y)

theorem nodup_connected (g : Graph) (x : String) (direction : Direction) :
    (g.connected x direction).Nodup :=
  Text.nodup_orderedSet _

theorem length_connected (side : Side) (nodup : (g.edges.map (·.ends)).Nodup) (x : String) :
    (g.connected x side.direction).length = g.edges.countP (·.at side == x) := by
  rw [connected, flatMap_neighbours, (Text.orderedSet_perm (nodup_map_opposite side nodup x)).length_eq,
    List.length_map, List.countP_eq_length_filter]

theorem length_connected_both {ids : List String} (distinct : ids.Nodup)
    (known : ∀ direction, g.connected x direction ⊆ ids) :
    (g.connected x .both).length +
        ids.countP (fun y => (g.connected x .dependencies).contains y &&
          (g.connected x .dependents).contains y) =
      (g.connected x .dependencies).length + (g.connected x .dependents).length := by
  have counted := fun direction =>
    length_eq_countP (nodup_connected g x direction) distinct (known direction)
  have either : ∀ y, (g.connected x .both).contains y =
      ((g.connected x .dependencies).contains y || (g.connected x .dependents).contains y) := by
    intro y
    rw [Bool.eq_iff_iff, Bool.or_eq_true]
    simpa only [List.contains_iff_mem] using mem_connected_both
  have overlap := countP_or_add_countP_and (g.connected x .dependencies).contains
    (g.connected x .dependents).contains ids
  rw [counted .both, counted .dependencies, counted .dependents, ← overlap]
  simp only [either]

/-! ## Graphs of source files -/

variable {tree : FileTree} {root : Path} {aliases : AliasTable} {files : List SourceFile}

theorem length_connected_assemble (side : Side) (distinct : (files.map (·.relativePath)).Nodup)
    {node : Node} (member : node ∈ (assemble tree root aliases files).nodes) :
    ((assemble tree root aliases files).connected node.id side.direction).length =
      node.count side := by
  rw [length_connected side (nodup_ends_assemble tree root aliases files),
    count_assemble side distinct member]

theorem of_mem_connected_assemble {x y : String} {direction : Direction}
    (member : y ∈ (assemble tree root aliases files).connected x direction) :
    y ∈ (assemble tree root aliases files).nodes.map (·.id) ∧ y ≠ x := by
  rw [map_id_assemble]
  have out (joined : y ∈ (assemble tree root aliases files).connected x .dependencies) :
      y ∈ files.map (·.relativePath) ∧ y ≠ x := by
    obtain ⟨-, known, apart⟩ := mem_ids_of_mem_ends (mem_connected_dependencies.1 joined)
    exact ⟨known, apart.symm⟩
  have into (joined : y ∈ (assemble tree root aliases files).connected x .dependents) :
      y ∈ files.map (·.relativePath) ∧ y ≠ x := by
    obtain ⟨known, -, apart⟩ := mem_ids_of_mem_ends (mem_connected_dependents.1 joined)
    exact ⟨known, apart⟩
  cases direction with
  | dependencies => exact out member
  | dependents => exact into member
  | both => exact (mem_connected_both.1 member).elim out into

/-- What is answered about a file is what its node counts. The files on both sides are counted once,
so that the answer for both sides is shorter than the two others by their number. -/
theorem connected_assemble (distinct : (files.map (·.relativePath)).Nodup) {node : Node}
    (member : node ∈ (assemble tree root aliases files).nodes) :
    let graph := assemble tree root aliases files
    let pairs := graph.edges.map (·.ends)
    let answer := graph.connected node.id
    (answer .dependencies).length = node.dependencyCount ∧
      (answer .dependents).length = node.dependentCount ∧
      (∀ direction, (answer direction).Pairwise (fun x y => Text.bytes x < Text.bytes y) ∧
        node.id ∉ answer direction ∧ ∀ y ∈ answer direction, y ∈ graph.nodes.map (·.id)) ∧
      (∀ y, (y ∈ answer .dependencies ↔ (node.id, y) ∈ pairs) ∧
        (y ∈ answer .dependencies ↔ node.id ∈ graph.connected y .dependents) ∧
        (y ∈ answer .both ↔ y ∈ answer .dependencies ∨ y ∈ answer .dependents)) ∧
      (answer .both).length +
          graph.nodes.countP (fun y => (node.id, y.id) ∈ pairs ∧ (y.id, node.id) ∈ pairs) =
        node.dependencyCount + node.dependentCount := by
  intro graph pairs answer
  have dependencies : (answer .dependencies).length = node.dependencyCount :=
    length_connected_assemble .dependencies distinct member
  have dependents : (answer .dependents).length = node.dependentCount :=
    length_connected_assemble .dependents distinct member
  refine ⟨dependencies, dependents, fun direction => ⟨?_, ?_, ?_⟩, fun y => ⟨?_, ?_, ?_⟩, ?_⟩
  · exact (Text.pairwise_orderedSet _).imp Text.bytes_lt_bytes
  · exact fun own => (of_mem_connected_assemble own).2 rfl
  · exact fun y given => (of_mem_connected_assemble given).1
  · exact mem_connected_dependencies
  · rw [mem_connected_dependents]
    exact mem_connected_dependencies
  · exact mem_connected_both
  · have ids : (graph.nodes.map (·.id)).Nodup := by
      rwa [map_id_assemble]
    rw [← dependencies, ← dependents, ← length_connected_both ids fun direction y given =>
      (of_mem_connected_assemble given).1, List.countP_map]
    congr 1
    refine List.countP_congr fun y _ => ?_
    simp only [Function.comp_apply, Bool.and_eq_true, List.contains_iff_mem, decide_eq_true_eq,
      mem_connected_dependencies, mem_connected_dependents]
    exact Iff.rfl

/-- The first of three modules imports the others, and one of them imports it. -/
theorem connected_assemble_overlap :
    let imports := fun s => if s = "a" then ["c", "b"] else if s = "b" then ["a"] else []
    let entries := ["a", "b", "c"].map fun s =>
      (moduleName s, Entry.file (moduleText (imports s)).toUTF8)
    let tree := FileTree.single entries
    ∃ files, SourceFile.below tree ["p"] ⟨"/p"⟩ (.folder entries) = .ok files ∧
      (files.map (·.relativePath)).Nodup ∧
      let graph := assemble tree ⟨"/p"⟩ [] files
      ∃ node ∈ graph.nodes, node.id = "a.ts" ∧
        graph.connected "a.ts" .dependencies = ["b.ts", "c.ts"] ∧
        graph.connected "a.ts" .dependents = ["b.ts"] ∧
        graph.connected "a.ts" .both = ["b.ts", "c.ts"] ∧
        node.dependencyCount = 2 ∧ node.dependentCount = 1 := by
  intro imports entries tree
  have stems : ∀ s ∈ ["a", "b", "c"], IsStem s := by
    have plain : ∀ s ∈ ["a", "b", "c"], s.toList ≠ [] ∧ s.toList.all isStemChar = true := by decide
    exact fun s member => ⟨(plain s member).1, (plain s member).2⟩
  have inside : ∀ s ∈ ["a", "b", "c"], ∀ t ∈ imports s, t ∈ ["a", "b", "c"] := by decide
  obtain ⟨project, inReach⟩ := moduleFolder_single ["a", "b", "c"] imports
    (by decide) stems (fun s given t isImport => stems t (inside s given t isImport)) (by decide)
  obtain ⟨files, collected⟩ := project.exists_below inReach.opened
  let graph := assemble tree ⟨"/p"⟩ [] files
  have paths : (files.map (·.relativePath)).Perm ["a.ts", "b.ts", "c.ts"] :=
    project.relativePath_perm inReach collected
  have distinct : (files.map (·.relativePath)).Nodup := paths.nodup_iff.2 (by decide)
  obtain ⟨node, member, named⟩ : ∃ node ∈ graph.nodes, node.id = "a.ts" := by
    refine List.mem_map.1 ?_
    rw [map_id_assemble]
    exact paths.mem_iff.2 (by decide)
  have pairs : ∀ pair, pair ∈ graph.edges.map (·.ends) ↔
      pair ∈ [("a.ts", "b.ts"), ("a.ts", "c.ts"), ("b.ts", "a.ts")] := by
    intro pair
    refine (project.mem_ends_assemble_iff inReach collected).trans ⟨?_, ?_⟩
    · rintro ⟨a, given, b, inside, joined, rfl⟩
      revert a b
      decide
    · revert pair
      decide
  obtain ⟨dependencies, dependents, -, each, -⟩ := connected_assemble distinct member
  rw [named] at dependencies dependents each
  have out : graph.connected "a.ts" .dependencies = ["b.ts", "c.ts"] := by
    refine connected_eq (by decide) fun y => (each y).1.trans ((pairs _).trans ?_)
    simp
  have into : graph.connected "a.ts" .dependents = ["b.ts"] := by
    refine connected_eq (by decide) fun y => mem_connected_dependents.trans ((pairs _).trans ?_)
    simp
  have both : graph.connected "a.ts" .both = ["b.ts", "c.ts"] := by
    refine connected_eq (by decide) fun y => (each y).2.2.trans ?_
    rw [out, into]
    exact or_iff_left_of_imp fun last => List.mem_cons.2 (.inl (List.mem_singleton.1 last))
  refine ⟨files, collected, distinct, node, member, named, out, into, both, ?_, ?_⟩
  · exact dependencies.symm.trans (congrArg List.length out)
  · exact dependents.symm.trans (congrArg List.length into)

end Graph

end FileGraph
