import FileGraph.Proofs.FileTree.Leads
import FileGraph.Proofs.Graph.Aggregate
import FileGraph.Proofs.Statement.Script
import Mathlib.Algebra.Order.BigOperators.Group.List
import Mathlib.Algebra.Order.Ring.Nat
import Mathlib.Data.List.Perm.Subperm

/-! # The numbers of edges at the files of a graph

* `Side`: the two ends of an edge, and the number that a node keeps for each.
* `sum_count_countReferences`: each edge between known files is counted once on either side.
* `countReferences_eq_map`: with different ids, every node has the numbers of its own edges.
* `nodup_map_opposite`, `countP_lt_length`: edges at one file lead to different files, so that a file
  has fewer edges on either side than there are files.
* `Graph.assemble_counters`: the counters and the summary of the graph of source files.
-/

namespace FileGraph

/-- Dependencies leave a file, dependents enter it. -/
inductive Side where
  | dependencies | dependents
  deriving DecidableEq

/-- The file at which an edge counts on the given side. -/
def Edge.at (side : Side) (e : Edge) : String :=
  match side with
  | .dependencies => e.source
  | .dependents => e.target

def Edge.opposite (side : Side) (e : Edge) : String :=
  match side with
  | .dependencies => e.target
  | .dependents => e.source

def Node.count (side : Side) (node : Node) : Nat :=
  match side with
  | .dependencies => node.dependencyCount
  | .dependents => node.dependentCount

variable (side : Side) {edges : List Edge} {nodes : List Node}

theorem Node.count_counted (edges : List Edge) (node : Node) :
    (node.counted edges).count side = node.count side + edges.countP (·.at side == node.id) := by
  cases side <;> rfl

/-! ## All nodes together -/

theorem map_count_of_foreign (foreign : ∀ e ∈ edges, e.at side ∉ nodes.map (·.id)) :
    (countReferences edges nodes).map (·.count side) = nodes.map (·.count side) := by
  induction nodes with
  | nil => rfl
  | cons node later ih =>
      have elsewhere : ∀ e ∈ edges, e.at side ≠ node.id := fun e given same =>
        foreign e given (same ▸ List.mem_cons_self)
      rw [countReferences_node, List.map_cons, List.map_cons,
        ih fun e given known => foreign e given (List.mem_cons_of_mem _ known)]
      split
      next => rfl
      next =>
        rw [Node.count_counted, List.countP_eq_zero.2 fun e given => by simp [elsewhere e given]]
        rfl

/-- An edge at a known file is counted at one node, the last one with the id of that file. -/
theorem sum_count_singleton {edge : Edge} (known : edge.at side ∈ nodes.map (·.id)) :
    ((countReferences [edge] nodes).map (·.count side)).sum =
      (nodes.map (·.count side)).sum + 1 := by
  induction nodes with
  | nil => cases known
  | cons node later ih =>
      rw [countReferences_node, List.map_cons, List.sum_cons, List.map_cons, List.sum_cons]
      by_cases further : edge.at side ∈ later.map (·.id)
      · have here : (if node.id ∈ later.map (·.id) then node else node.counted [edge]).count side =
            node.count side := by
          split
          next => rfl
          next last =>
            have apart : edge.at side ≠ node.id := fun same => last (same ▸ further)
            simp [Node.count_counted, apart]
        rw [here, ih further, Nat.add_assoc]
      · have same : edge.at side = node.id := by
          cases List.mem_cons.1 known with
          | inl here => exact here
          | inr there => exact absurd there further
        rw [map_count_of_foreign side fun e given => List.mem_singleton.1 given ▸ further,
          if_neg (same ▸ further), Node.count_counted, List.countP_singleton,
          if_pos (beq_iff_eq.2 same)]
        omega

theorem sum_count_countReferences (known : ∀ e ∈ edges, e.at side ∈ nodes.map (·.id)) :
    ((countReferences edges nodes).map (·.count side)).sum =
      (nodes.map (·.count side)).sum + edges.length := by
  induction edges generalizing nodes with
  | nil =>
      rw [map_count_of_foreign side fun e given => absurd given List.not_mem_nil]
      rfl
  | cons edge edges ih =>
      have here := sum_count_singleton side (known edge List.mem_cons_self)
      have known' : ∀ e ∈ edges, e.at side ∈ (countReferences [edge] nodes).map (·.id) := by
        intro e member
        rw [map_id_countReferences]
        exact known e (List.mem_cons_of_mem edge member)
      have later := ih known'
      rw [countReferences_cons, later, here, List.length_cons]
      omega

/-! ## Files with different ids -/

theorem countReferences_eq_map (nodup : (nodes.map (·.id)).Nodup) :
    countReferences edges nodes = nodes.map (·.counted edges) := by
  induction nodes with
  | nil => rfl
  | cons node later ih =>
      obtain ⟨fresh, nodup⟩ := List.nodup_cons.1 nodup
      rw [countReferences_node, if_neg fresh, ih nodup, List.map_cons]

theorem mem_countReferences (nodup : (nodes.map (·.id)).Nodup) {node : Node}
    (member : node ∈ countReferences edges nodes) : ∃ old ∈ nodes, node = old.counted edges := by
  rw [countReferences_eq_map nodup] at member
  obtain ⟨old, held, counted⟩ := List.mem_map.1 member
  exact ⟨old, held, counted.symm⟩

theorem Edge.ne_opposite {e : Edge} (apart : e.source ≠ e.target) : e.opposite side ≠ e.at side := by
  cases side with
  | dependencies => exact apart.symm
  | dependents => exact apart

theorem Edge.ends_eq {first second : Edge} (near : first.at side = second.at side)
    (far : first.opposite side = second.opposite side) : first.ends = second.ends := by
  cases side with
  | dependencies => exact Prod.ext near far
  | dependents => exact Prod.ext far near

theorem Edge.at_mem_and_opposite_mem {ids : List String} {e : Edge}
    (known : e.source ∈ ids ∧ e.target ∈ ids ∧ e.source ≠ e.target) :
    e.at side ∈ ids ∧ e.opposite side ∈ ids ∧ e.source ≠ e.target := by
  cases side with
  | dependencies => exact known
  | dependents => exact ⟨known.2.1, known.1, known.2.2⟩

/-- Edges at one file lead to different other files. -/
theorem nodup_map_opposite (nodup : (edges.map (·.ends)).Nodup) (x : String) :
    ((edges.filter (·.at side == x)).map (·.opposite side)).Nodup := by
  have own : ((edges.filter (·.at side == x)).map (·.ends)).Nodup :=
    nodup.sublist (List.filter_sublist.map _)
  rw [List.nodup_iff_pairwise_ne, List.pairwise_map] at own ⊢
  refine own.imp_of_mem fun first second apart same => apart ?_
  have near := beq_iff_eq.1 (List.mem_filter.1 first).2
  exact Edge.ends_eq side (near.trans (beq_iff_eq.1 (List.mem_filter.1 second).2).symm) same

theorem countP_lt_length {ids : List String} (nodup : (edges.map (·.ends)).Nodup)
    (known : ∀ e ∈ edges, e.opposite side ∈ ids ∧ e.source ≠ e.target) {x : String}
    (member : x ∈ ids) : edges.countP (·.at side == x) < ids.length := by
  have inside : (edges.filter (·.at side == x)).map (·.opposite side) ⊆ ids.erase x := by
    intro y given
    obtain ⟨e, held, rfl⟩ := List.mem_map.1 given
    obtain ⟨held, near⟩ := List.mem_filter.1 held
    obtain ⟨far, apart⟩ := known e held
    exact (List.mem_erase_of_ne (beq_iff_eq.1 near ▸ Edge.ne_opposite side apart)).2 far
  have bound := (List.subperm_of_subset (nodup_map_opposite side nodup x) inside).length_le
  rw [List.length_map, List.length_erase_of_mem member] at bound
  have positive := List.length_pos_of_mem member
  rw [List.countP_eq_length_filter]
  omega

/-! ## Graphs of source files -/

theorem markNodes_count (cycles : List (List String)) (nodes : List Node) :
    (Cycle.markNodes cycles nodes).map (·.count side) = nodes.map (·.count side) := by
  rw [Cycle.markNodes_eq_map, List.map_map]
  cases side <;> rfl

theorem markEdges_countP (cycles : List (List String)) (edges : List Edge) (x : String) :
    (Cycle.markEdges cycles edges).countP (·.at side == x) = edges.countP (·.at side == x) := by
  rw [Cycle.markEdges_eq_map, List.countP_map]
  cases side <;> rfl

namespace Graph

variable {tree : FileTree} {root : Path} {aliases : AliasTable} {files : List SourceFile}

theorem exists_nodes_assemble (tree : FileTree) (root : Path) (aliases : AliasTable)
    (files : List SourceFile) :
    ∃ cycles, (assemble tree root aliases files).nodes = Cycle.markNodes cycles
      (countReferences (aggregate (linksFor tree root aliases files)) (files.map .ofSource)) := by
  rw [assemble_eq]
  exact ⟨_, rfl⟩

theorem sum_count_assemble :
    ((assemble tree root aliases files).nodes.map (·.count side)).sum =
      (assemble tree root aliases files).edges.length := by
  obtain ⟨_, nodes⟩ := exists_nodes_assemble tree root aliases files
  obtain ⟨_, edges⟩ := exists_edges_assemble tree root aliases files
  have fresh : ((files.map Node.ofSource).map (·.count side)).sum = 0 := by
    cases side <;> simp [Node.count, Node.ofSource, Function.comp_def]
  rw [nodes, edges, markNodes_count, sum_count_countReferences, fresh, Nat.zero_add,
    Cycle.markEdges_eq_map, List.length_map]
  intro e member
  have ends := List.mem_map_of_mem (f := Edge.ends) member
  rw [← map_ends_assemble] at ends
  rw [List.map_map]
  exact (Edge.at_mem_and_opposite_mem side (mem_ids_of_mem_ends ends)).1

theorem count_assemble (distinct : (files.map (·.relativePath)).Nodup) {node : Node}
    (member : node ∈ (assemble tree root aliases files).nodes) :
    node.count side =
      (assemble tree root aliases files).edges.countP (·.at side == node.id) := by
  obtain ⟨cycles, nodes⟩ := exists_nodes_assemble tree root aliases files
  obtain ⟨_, edges⟩ := exists_edges_assemble tree root aliases files
  rw [nodes, Cycle.markNodes_eq_map] at member
  obtain ⟨unmarked, held, rfl⟩ := List.mem_map.1 member
  rw [edges, markEdges_countP]
  obtain ⟨plain, given, rfl⟩ := mem_countReferences (by rwa [List.map_map]) held
  obtain ⟨file, _, rfl⟩ := List.mem_map.1 given
  cases side with
  | dependencies => exact Nat.zero_add _
  | dependents => exact Nat.zero_add _

theorem count_lt_length (distinct : (files.map (·.relativePath)).Nodup) {node : Node}
    (member : node ∈ (assemble tree root aliases files).nodes) :
    node.count side < (assemble tree root aliases files).nodes.length := by
  have known : ∀ e ∈ (assemble tree root aliases files).edges,
      e.opposite side ∈ files.map (·.relativePath) ∧ e.source ≠ e.target := fun e given =>
    (Edge.at_mem_and_opposite_mem side (mem_ids_of_mem_ends (List.mem_map_of_mem given))).2
  rw [← map_id_assemble tree root aliases] at known
  have few := countP_lt_length side (nodup_ends_assemble tree root aliases files) known
    (List.mem_map_of_mem member)
  rwa [count_assemble side distinct member, ← List.length_map (·.id)]

/-- The numbers at the nodes and in the summary are those of the edges, each of which counts once on
either side. -/
theorem assemble_counters (tree : FileTree) (root : Path) (aliases : AliasTable)
    (files : List SourceFile) :
    let graph := assemble tree root aliases files
    let n := graph.nodes.length
    (graph.nodes.map (·.dependencyCount)).sum = graph.edges.length ∧
      (graph.nodes.map (·.dependentCount)).sum = graph.edges.length ∧
      ((files.map (·.relativePath)).Nodup →
        (∀ node ∈ graph.nodes,
          node.dependencyCount = graph.edges.countP (·.source == node.id) ∧
          node.dependentCount = graph.edges.countP (·.target == node.id) ∧
          node.dependencyCount ≤ n - 1 ∧ node.dependentCount ≤ n - 1) ∧
        graph.edges.length ≤ n * (n - 1)) ∧
      graph.summary.totalNodes = n ∧
      graph.summary.totalEdges = graph.edges.length ∧
      (∀ l, l ∈ graph.summary.languages.toList ↔ ∃ node ∈ graph.nodes, node.language = l) ∧
      graph.summary.cycleCount = graph.cycles.length ∧
      graph.summary.maxDependencies = (graph.nodes.map (·.dependencyCount)).max?.getD 0 ∧
      graph.summary.maxDependents = (graph.nodes.map (·.dependentCount)).max?.getD 0 := by
  intro graph n
  have sum : (graph.nodes.map (·.dependencyCount)).sum = graph.edges.length :=
    sum_count_assemble .dependencies
  refine ⟨sum, sum_count_assemble .dependents, ?_, rfl, rfl, ?_, rfl, ?_, ?_⟩
  · intro distinct
    have most : ∀ side, ∀ node ∈ graph.nodes, node.count side ≤ n - 1 :=
      fun side _ member => Nat.le_sub_one_of_lt (count_lt_length side distinct member)
    constructor
    · intro node member
      exact ⟨count_assemble .dependencies distinct member, count_assemble .dependents distinct member,
        most .dependencies node member, most .dependents node member⟩
    · have bound := List.sum_le_card_nsmul (graph.nodes.map (·.dependencyCount)) (n - 1)
        (List.forall_mem_map.2 (most .dependencies))
      rwa [sum, List.length_map, nsmul_eq_mul, Nat.cast_id] at bound
  · intro l
    exact Language.mem_listed.trans List.mem_map
  · exact List.foldl_max.trans (Nat.zero_max _)
  · exact List.foldl_max.trans (Nat.zero_max _)

/-- Of two files, the first one refers to the second. -/
theorem assemble_counters_pair :
    let text := moduleText ["b"]
    let entries := [("a.ts", Entry.file text.toUTF8), ("b.ts", .file .empty)]
    let tree := FileTree.single entries
    let files : List SourceFile :=
      [⟨⟨"/p/a.ts"⟩, "a.ts", text, .typeScript⟩, ⟨⟨"/p/b.ts"⟩, "b.ts", moduleText [], .typeScript⟩]
    let graph := assemble tree ⟨"/p"⟩ [] files
    (files.map (·.relativePath)).Nodup ∧ graph.edges.map (·.ends) = [("a.ts", "b.ts")] ∧
      graph.nodes.map (·.dependencyCount) = [1, 0] ∧
      graph.nodes.map (·.dependentCount) = [0, 1] := by
  intro text entries tree files graph
  have wellFormed : tree.WellFormed := by
    refine FileTree.wellNamed_folder (List.forall_mem_singleton.2 ⟨by decide, ?_⟩)
    refine FileTree.wellNamed_folder (List.forall_mem_cons.2 ⟨?_, List.forall_mem_singleton.2 ?_⟩)
    · exact ⟨by decide, FileTree.wellNamed_file _ _⟩
    · exact ⟨by decide, FileTree.wellNamed_file _ _⟩
  have found : tree.isFile ⟨"/p/./b.ts"⟩ = true := by
    have path : (⟨"/p/./b.ts"⟩ : Path) = Location.toPath (["p"] ++ (["."] ++ ["b.ts"])) := by decide
    rw [path]
    have standing : entries.lookup "b.ts" = some (.file .empty) := rfl
    exact FileTree.isFile_of_file wellFormed rfl (by decide) standing rfl (by decide)
  -- The first path that is tried is the right one.
  have led : (Resolver.ofProject ⟨"/p"⟩ [] ["a.ts", "b.ts"]).path? tree
      ⟨⟨"/p/a.ts"⟩, "a.ts", text, .typeScript⟩ "./b" = some ⟨"/p/./b.ts"⟩ := by
    have folder : (Path.mk "/p/a.ts").parent? = some ⟨"/p"⟩ := by decide
    have probed : Resolver.probes .typeScript (Path.join ⟨"/p"⟩ "./b") =
        ⟨"/p/./b.ts"⟩ :: (Resolver.probes .typeScript (Path.join ⟨"/p"⟩ "./b")).tail := by decide
    simp only [Resolver.path?, Resolver.scriptPath?, Resolver.ofProject, AliasTable.rewrite?,
      SourceFile.folder, folder, Resolver.firstFile?, List.findSome?_nil, Option.getD_some]
    rw [if_pos (by decide), probed, List.find?_cons_of_pos found]
  have resolved : (Resolver.ofProject ⟨"/p"⟩ [] ["a.ts", "b.ts"]).resolve? tree
      ⟨⟨"/p/a.ts"⟩, "a.ts", text, .typeScript⟩ "./b" = some "b.ts" := by
    rw [Resolver.resolve?, led, Option.bind_some]
    decide
  have linked : linksFor tree ⟨"/p"⟩ [] files = [⟨"a.ts", "b.ts", .import⟩] := by
    have isStem : ∀ s ∈ ["b"], IsStem s := List.forall_mem_singleton.2 ⟨by decide, by decide⟩
    have written : Extract.references .typeScript text = [⟨"./b", .import, 1⟩] :=
      references_moduleText isStem
    have nothing : Extract.references .typeScript (moduleText []) = [] :=
      references_moduleText (List.forall_mem_nil _)
    simp [linksFor, linksOf, linksOfFile_eq_filterMap, files, written, nothing, resolved]
  have edges : graph.edges.map (·.ends) = [("a.ts", "b.ts")] := by
    rw [map_ends_assemble, linked]
    rfl
  have ids : graph.nodes.map (·.id) = ["a.ts", "b.ts"] := map_id_assemble ..
  have distinct : (files.map (·.relativePath)).Nodup := by decide
  obtain ⟨-, -, counters, -⟩ := assemble_counters tree ⟨"/p"⟩ [] files
  have counted : ∀ node ∈ graph.nodes,
      node.dependencyCount = [("a.ts", "b.ts")].countP (·.1 == node.id) ∧
        node.dependentCount = [("a.ts", "b.ts")].countP (·.2 == node.id) := by
    intro node member
    obtain ⟨dependencies, dependents, -⟩ := (counters distinct).1 node member
    rw [← edges, List.countP_map, List.countP_map]
    exact ⟨dependencies, dependents⟩
  refine ⟨distinct, edges, ?_, ?_⟩
  · calc graph.nodes.map (·.dependencyCount)
        _ = (graph.nodes.map (·.id)).map fun x => [("a.ts", "b.ts")].countP (·.1 == x) := by
          rw [List.map_map]
          exact List.map_congr_left fun node member => (counted node member).1
        _ = [1, 0] := by
          rw [ids]
          rfl
  · calc graph.nodes.map (·.dependentCount)
        _ = (graph.nodes.map (·.id)).map fun x => [("a.ts", "b.ts")].countP (·.2 == x) := by
          rw [List.map_map]
          exact List.map_congr_left fun node member => (counted node member).2
        _ = [0, 1] := by
          rw [ids]
          rfl

end Graph

end FileGraph
