import FileGraph.Proofs.Graph.Counters

/-! # The order of the source files

The links between files stand in another order when the files do, and so do the cycles that are found
first. What is said of a file or of a pair of files stays.

* `findSome?_eq_of_perm`: where one member answers, the first answer is the same in every order.
* `Resolver.resolve?_eq_of_perm`: a target leads to the same id.
* `aggregate_perm`: the edges are the same if the first links between files are.
* `Graph.ofParts_perm`: the same nodes and edges are marked and counted alike.
* `Graph.assemble_perm`: the graph of the same files in another order.
-/

namespace FileGraph

theorem findSome?_eq_some_iff {α β : Type} {f : α → Option β} {xs : List α} {answer : β}
    (single : ∀ x ∈ xs, ∀ y ∈ xs, (f x).isSome → (f y).isSome → x = y) :
    xs.findSome? f = some answer ↔ ∃ x ∈ xs, f x = some answer := by
  constructor
  · exact List.exists_of_findSome?_eq_some
  · rintro ⟨x, member, answers⟩
    cases found : xs.findSome? f with
    | none =>
      rw [List.findSome?_eq_none_iff] at found
      rw [found x member] at answers
      cases answers
    | some other =>
      obtain ⟨y, member', answers'⟩ := List.exists_of_findSome?_eq_some found
      obtain rfl := single x member y member' (by simp [answers]) (by simp [answers'])
      rw [← answers, answers']

/-- If only one member of a list answers, its place does not matter. -/
theorem findSome?_eq_of_perm {α β : Type} {f : α → Option β} {xs ys : List α} (perm : xs.Perm ys)
    (single : ∀ x ∈ xs, ∀ y ∈ xs, (f x).isSome → (f y).isSome → x = y) :
    xs.findSome? f = ys.findSome? f := by
  have single' : ∀ x ∈ ys, ∀ y ∈ ys, (f x).isSome → (f y).isSome → x = y :=
    fun x hx y hy => single x (perm.mem_iff.2 hx) y (perm.mem_iff.2 hy)
  ext answer
  simp only [findSome?_eq_some_iff single, findSome?_eq_some_iff single', perm.mem_iff]

/-! ## Resolving -/

namespace Resolver

variable {root : Path} {aliases : AliasTable} {ids ids' : List String}

theorem path?_ofProject (ids ids' : List String) (tree : FileTree) (file : SourceFile)
    (target : String) :
    (ofProject root aliases ids).path? tree file target =
      (ofProject root aliases ids').path? tree file target := by
  unfold path?
  cases file.language <;> rfl

/-- With different file names the id of a path is its place or the only id with its name. -/
theorem idFor?_eq_of_perm (perm : ids.Perm ids') (names : (ids.map baseName).Nodup) (path : Path) :
    (ofProject root aliases ids).idFor? path = (ofProject root aliases ids').idFor? path := by
  have placed : ∀ id, ids.contains id = ids'.contains id := by
    intro id
    rw [Bool.eq_iff_iff, List.contains_iff_mem, List.contains_iff_mem, perm.mem_iff]
  have named : ∀ name, ids.find? (baseName · == name) = ids'.find? (baseName · == name) := by
    intro name
    rw [List.find?_eq_findSome?_guard, List.find?_eq_findSome?_guard]
    apply findSome?_eq_of_perm perm
    intro x hx y hy first second
    apply List.inj_on_of_nodup_map names hx hy
    simp_all
  simp only [idFor?, ofProject, placed, named]

theorem resolve?_eq_of_perm (perm : ids.Perm ids') (names : (ids.map baseName).Nodup)
    (tree : FileTree) (file : SourceFile) (target : String) :
    (ofProject root aliases ids).resolve? tree file target =
      (ofProject root aliases ids').resolve? tree file target := by
  unfold resolve?
  rw [path?_ofProject ids ids']
  exact Option.bind_congr fun path _ => idFor?_eq_of_perm perm names path

end Resolver

/-! ## Edges -/

/-- Edges with the same ends have the same first link and count, which make up an edge. -/
theorem Tally.mem_iff {links : List Link} {edges : List Edge} (tally : Tally links edges)
    {e : Edge} : e ∈ edges ↔ ∃ first, links.find? (·.ends = e.ends) = some first ∧
      e = .ofCount e.source e.target first.kind ((links.map (·.ends)).count e.ends) := by
  constructor
  · exact tally.counted e
  · rintro ⟨first, found, made⟩
    have same : first.ends = e.ends := by simpa using List.find?_some found
    have joined : e.ends ∈ edges.map (·.ends) := by
      rw [tally.mem_ends_iff, ← same]
      exact List.mem_map_of_mem (List.mem_of_find?_eq_some found)
    obtain ⟨other, member, ends⟩ := List.mem_map.1 joined
    obtain ⟨first', found', made'⟩ := tally.counted other member
    obtain ⟨source, target⟩ := Prod.mk.inj ends
    rw [ends, found] at found'
    obtain rfl := Option.some.inj found'
    rw [source, target, ends, ← made] at made'
    exact made' ▸ member

theorem aggregate_perm {links links' : List Link} (perm : links.Perm links')
    (first : ∀ pair, links.find? (·.ends = pair) = links'.find? (·.ends = pair)) :
    (aggregate links).Perm (aggregate links') := by
  have tally := tally_aggregate links
  have tally' := tally_aggregate links'
  refine (List.perm_ext_iff_of_nodup (.of_map _ tally.nodup) (.of_map _ tally'.nodup)).2 fun e => ?_
  rw [tally.mem_iff, tally'.mem_iff, first, (perm.map _).count_eq]

/-! ## Marks and counters -/

theorem countReferences_perm {edges edges' : List Edge} {nodes nodes' : List Node}
    (edgesPerm : edges.Perm edges') (nodesPerm : nodes.Perm nodes')
    (distinct : (nodes.map (·.id)).Nodup) :
    (countReferences edges nodes).Perm (countReferences edges' nodes') := by
  have distinct' : (nodes'.map (·.id)).Nodup := (nodesPerm.map _).nodup_iff.1 distinct
  have counted : Node.counted edges = Node.counted edges' := by
    funext node
    simp only [Node.counted, edgesPerm.countP_eq]
  rw [countReferences_eq_map distinct, countReferences_eq_map distinct', counted]
  exact nodesPerm.map _

theorem foldl_max_eq_of_perm {xs ys : List Nat} (perm : xs.Perm ys) :
    xs.foldl max 0 = ys.foldl max 0 :=
  perm.foldl_eq' (fun x _ y _ most => by omega) 0

/-- Only the number of cycles depends on more than the nodes and the number of edges. -/
theorem Summary.compute_eq_of_perm {nodes nodes' : List Node} {edges edges' : List Edge}
    (nodesPerm : nodes.Perm nodes') (sameNumber : edges.length = edges'.length)
    (cycles cycles' : List (List String)) :
    { compute nodes edges cycles with cycleCount := 0 } =
      { compute nodes' edges' cycles' with cycleCount := 0 } := by
  have languages : ∀ l, (nodes.map (·.language)).contains l = (nodes'.map (·.language)).contains l :=
    fun l => (nodesPerm.map _).contains_eq
  simp only [compute, nodesPerm.length_eq, sameNumber, LanguageSet.ofList, Language.listed,
    languages, foldl_max_eq_of_perm (nodesPerm.map (·.dependencyCount)),
    foldl_max_eq_of_perm (nodesPerm.map (·.dependentCount))]

theorem Cycle.mem_flatten_detect_congr {ids ids' : List String}
    {references references' : List (String × String)} (sameIds : ∀ x, x ∈ ids ↔ x ∈ ids')
    (sameReferences : ∀ pair, pair ∈ references ↔ pair ∈ references')
    (plain : ∀ x ∈ ids, '\n' ∉ x.toList) (x : String) :
    x ∈ (detect ids references).flatten ↔ x ∈ (detect ids' references').flatten := by
  have steps : KnownStep ids references = KnownStep ids' references' := by
    funext x y
    simp only [KnownStep, sameIds, sameReferences]
  have plain' : ∀ x ∈ ids', '\n' ∉ x.toList := fun x known => plain x ((sameIds x).2 known)
  simp only [mem_flatten_detect_iff plain, mem_flatten_detect_iff plain', steps, sameIds]

namespace Graph

/-- The files on the cycles of given nodes and edges. -/
abbrev circularIds (nodes : List Node) (edges : List Edge) : List String :=
  (Cycle.detect (nodes.map (·.id)) (edges.map (·.ends))).flatten

theorem nodes_ofParts (nodes : List Node) (edges : List Edge) :
    (ofParts nodes edges).nodes = nodes.map fun node =>
      { node with isCircular := (circularIds nodes edges).contains node.id } :=
  rfl

theorem unmarked_ofParts (nodes : List Node) (edges : List Edge) :
    ((ofParts nodes edges).edges.map fun e => { e with isCircular := false }) =
      edges.map fun e => { e with isCircular := false } := by
  change (Cycle.markEdges _ edges).map _ = _
  rw [Cycle.markEdges_eq_map, List.map_map]
  rfl

/-- The marks of edges are those of the cycles that are found, and these may be others. -/
theorem ofParts_perm {nodes nodes' : List Node} {edges edges' : List Edge}
    (nodesPerm : nodes.Perm nodes') (edgesPerm : edges.Perm edges')
    (plain : ∀ node ∈ nodes, '\n' ∉ node.id.toList) :
    (ofParts nodes edges).nodes.Perm (ofParts nodes' edges').nodes ∧
      ((ofParts nodes edges).edges.map fun e => { e with isCircular := false }).Perm
        ((ofParts nodes' edges').edges.map fun e => { e with isCircular := false }) ∧
      { (ofParts nodes edges).summary with cycleCount := 0 } =
        { (ofParts nodes' edges').summary with cycleCount := 0 } := by
  have circular : ∀ x,
      (circularIds nodes edges).contains x = (circularIds nodes' edges').contains x := by
    intro x
    rw [Bool.eq_iff_iff, List.contains_iff_mem, List.contains_iff_mem]
    exact Cycle.mem_flatten_detect_congr (fun _ => (nodesPerm.map _).mem_iff)
      (fun _ => (edgesPerm.map _).mem_iff) (List.forall_mem_map.2 plain) x
  have nodesMarked : (ofParts nodes edges).nodes.Perm (ofParts nodes' edges').nodes := by
    simp only [nodes_ofParts, circular]
    exact nodesPerm.map _
  have edgesUnmarked : ((ofParts nodes edges).edges.map fun e => { e with isCircular := false }).Perm
      ((ofParts nodes' edges').edges.map fun e => { e with isCircular := false }) := by
    rw [unmarked_ofParts, unmarked_ofParts]
    exact edgesPerm.map _
  have sameNumber : (ofParts nodes edges).edges.length = (ofParts nodes' edges').edges.length := by
    simpa using edgesUnmarked.length_eq
  exact ⟨nodesMarked, edgesUnmarked, Summary.compute_eq_of_perm nodesMarked sameNumber _ _⟩

/-! ## Graphs of source files -/

section Assemble

variable (tree : FileTree) (root : Path) (aliases : AliasTable) {files files' : List SourceFile}

theorem linksOfFile_eq_of_perm (perm : files.Perm files')
    (names : (files.map fun file => Resolver.baseName file.relativePath).Nodup) :
    linksOfFile (.ofProject root aliases (files.map (·.relativePath))) tree =
      linksOfFile (.ofProject root aliases (files'.map (·.relativePath))) tree := by
  funext file
  simp only [linksOfFile_eq_filterMap]
  have names' : ((files.map (·.relativePath)).map Resolver.baseName).Nodup := by
    rwa [List.map_map]
  simp only [Resolver.resolve?_eq_of_perm (perm.map _) names']

theorem linksFor_perm (perm : files.Perm files')
    (names : (files.map fun file => Resolver.baseName file.relativePath).Nodup) :
    (linksFor tree root aliases files).Perm (linksFor tree root aliases files') := by
  unfold linksFor linksOf
  rw [linksOfFile_eq_of_perm tree root aliases perm names]
  exact perm.flatMap_right _

/-- All links from one file to another come out of the text of that one file. -/
theorem find?_linksFor_eq_of_perm (perm : files.Perm files')
    (distinct : (files.map (·.relativePath)).Nodup)
    (names : (files.map fun file => Resolver.baseName file.relativePath).Nodup)
    (pair : String × String) :
    (linksFor tree root aliases files).find? (·.ends = pair) =
      (linksFor tree root aliases files').find? (·.ends = pair) := by
  unfold linksFor linksOf
  rw [linksOfFile_eq_of_perm tree root aliases perm names, List.find?_flatMap, List.find?_flatMap]
  refine findSome?_eq_of_perm perm fun x hx y hy first second => ?_
  have fromSource : ∀ file, ((linksOfFile
      (.ofProject root aliases (files'.map (·.relativePath))) tree file).find?
        (·.ends = pair)).isSome → file.relativePath = pair.1 := by
    intro file found
    obtain ⟨link, member, same⟩ := List.find?_isSome.1 found
    obtain ⟨source, -⟩ := mem_linksOf (List.mem_flatMap_of_mem (List.mem_singleton_self file) member)
    obtain rfl := of_decide_eq_true same
    exact (List.mem_singleton.1 source).symm
  exact List.inj_on_of_nodup_map distinct hx hy
    ((fromSource x first).trans (fromSource y second).symm)

/-- The graph of the same files in another order has the same nodes, edges and figures. The cycles
that are recorded may be others, so that their number and the marks of edges may differ. -/
theorem assemble_perm (perm : files.Perm files') (distinct : (files.map (·.relativePath)).Nodup)
    (plain : ∀ file ∈ files, '\n' ∉ file.relativePath.toList)
    (names : (files.map fun file => Resolver.baseName file.relativePath).Nodup) :
    let graph := assemble tree root aliases files
    let graph' := assemble tree root aliases files'
    graph.nodes.Perm graph'.nodes ∧
      (graph.edges.map fun e => { e with isCircular := false }).Perm
        (graph'.edges.map fun e => { e with isCircular := false }) ∧
      { graph.summary with cycleCount := 0 } = { graph'.summary with cycleCount := 0 } := by
  intro graph graph'
  simp only [graph, graph', assemble_eq]
  have ids : ∀ files : List SourceFile,
      (files.map Node.ofSource).map (·.id) = files.map (·.relativePath) := by
    intro files
    rw [List.map_map]
    rfl
  have edges := aggregate_perm (linksFor_perm tree root aliases perm names)
    (find?_linksFor_eq_of_perm tree root aliases perm distinct names)
  have nodes := countReferences_perm edges (perm.map Node.ofSource) (by rwa [ids])
  refine ofParts_perm nodes edges fun node member => ?_
  have known := List.mem_map_of_mem (f := Node.id) member
  rw [map_id_countReferences, ids] at known
  obtain ⟨file, given, same⟩ := List.mem_map.1 known
  exact same ▸ plain file given

end Assemble

/-- The two files of a project, in either order. -/
theorem assemble_perm_swapped :
    let a : SourceFile := ⟨⟨"/p/a.ts"⟩, "a.ts", moduleText ["b"], .typeScript⟩
    let b : SourceFile := ⟨⟨"/p/b.ts"⟩, "b.ts", moduleText ["a"], .typeScript⟩
    let tree := FileTree.single
      [("a.ts", .file a.content.toUTF8), ("b.ts", .file b.content.toUTF8)]
    let graph := assemble tree ⟨"/p"⟩ [] [a, b]
    let graph' := assemble tree ⟨"/p"⟩ [] [b, a]
    ([a, b].map (·.relativePath)).Nodup ∧
      (∀ file ∈ [a, b], '\n' ∉ file.relativePath.toList) ∧
      ([a, b].map fun file => Resolver.baseName file.relativePath).Nodup ∧
      graph.nodes.map (·.id) = ["a.ts", "b.ts"] ∧ graph'.nodes.map (·.id) = ["b.ts", "a.ts"] ∧
      graph.nodes.Perm graph'.nodes ∧
      (graph.edges.map fun e => { e with isCircular := false }).Perm
        (graph'.edges.map fun e => { e with isCircular := false }) ∧
      { graph.summary with cycleCount := 0 } = { graph'.summary with cycleCount := 0 } := by
  intro a b tree graph graph'
  have distinct : ([a, b].map (·.relativePath)).Nodup := by decide
  have plain : ∀ file ∈ [a, b], '\n' ∉ file.relativePath.toList := by decide
  have names : ([a, b].map fun file => Resolver.baseName file.relativePath).Nodup := by decide
  refine ⟨distinct, plain, names, map_id_assemble .., map_id_assemble .., ?_⟩
  exact assemble_perm tree ⟨"/p"⟩ [] (.swap b a []) distinct plain names

end Graph

end FileGraph
