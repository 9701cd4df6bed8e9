import FileGraph.Graph.Build
import FileGraph.Proofs.Graph.Index

/-! # Tables of places, without the tables

* `addLink`, `aggregate`: edges with one more link and edges made of links, by a look at the edges
  themselves.
* `EdgeTable.edges_ofLinks`, `EdgeTable.exists_edge_of_lookup`: the table finds the edges.
* `countReferences`, `countEdges_eq`: nodes with their edges counted, one node after the other.
* `countReferences_cons`: edges can be counted one after the other.
* `Graph.assemble_eq`: the graph of source files in these terms.
-/

namespace FileGraph

def Link.ends (link : Link) : String × String :=
  (link.source, link.target)

def Edge.ends (e : Edge) : String × String :=
  (e.source, e.target)

/-! ## Links -/

theorem references_of_not_recognised {language : Language} (unknown : language.recognised = false)
    (content : String) : Extract.references language content = [] := by
  have found : Extract.found language content.toList = [] := by
    cases language <;> first | rfl | cases unknown
  rw [Extract.references, found]
  exact congrArg (List.map Extract.toReference) List.mergeSort_nil

/-- Nothing is lost by not looking at files of a language without forms of statements. -/
theorem linksOfFile_eq_filterMap (resolver : Resolver) (tree : FileTree) (file : SourceFile) :
    linksOfFile resolver tree file =
      (Extract.references file.language file.content).filterMap (fun reference => do
        let target ← resolver.resolve? tree file reference.target
        if target = file.relativePath then none
        else some ⟨file.relativePath, target, reference.kind⟩) := by
  rw [linksOfFile]
  cases recognised : file.language.recognised with
  | true => rfl
  | false =>
      rw [references_of_not_recognised recognised]
      rfl

/-! ## Edges -/

/-- Edges with one more link: in the edge between its files if there is one, else as a new edge. -/
def addLink : List Edge → Link → List Edge
  | [], link => [.ofReference link.source link.target link.kind]
  | edge :: later, link =>
    if edge.source = link.source ∧ edge.target = link.target then edge.another :: later
    else edge :: addLink later link

/-- The edges made of links: one for each pair of files, in the order of their first links. -/
def aggregate (links : List Link) : List Edge :=
  links.foldl addLink []

@[simp]
theorem Edge.ends_ofReference (link : Link) :
    (ofReference link.source link.target link.kind).ends = link.ends :=
  rfl

@[simp]
theorem Edge.ends_another (e : Edge) : e.another.ends = e.ends :=
  rfl

theorem Edge.ends_eq_iff {e : Edge} {link : Link} :
    e.ends = link.ends ↔ e.source = link.source ∧ e.target = link.target := by
  rw [ends, Link.ends, Prod.mk.injEq]

theorem map_ends_addLink (edges : List Edge) (link : Link) :
    (addLink edges link).map (·.ends) =
      if link.ends ∈ edges.map (·.ends) then edges.map (·.ends)
      else edges.map (·.ends) ++ [link.ends] := by
  induction edges with
  | nil => rfl
  | cons edge later ih =>
      unfold addLink
      by_cases same : edge.ends = link.ends
      · rw [if_pos (Edge.ends_eq_iff.1 same)]
        simp [same]
      · rw [if_neg (mt Edge.ends_eq_iff.2 same), List.map_cons, ih]
        by_cases later : link.ends ∈ later.map (·.ends)
        · simp [later]
        · simp [later, Ne.symm same]

theorem addLink_eq (edges : List Edge) (link : Link) :
    addLink edges link =
      match (edges.map (·.ends)).findIdx? (· == link.ends) with
      | some place => edges.modify place .another
      | none => edges ++ [.ofReference link.source link.target link.kind] := by
  induction edges with
  | nil => rfl
  | cons edge later ih =>
      unfold addLink
      by_cases same : edge.ends = link.ends
      · rw [if_pos (Edge.ends_eq_iff.1 same)]
        simp [List.findIdx?_cons, same]
      · rw [if_neg (mt Edge.ends_eq_iff.2 same), ih, List.map_cons, List.findIdx?_cons,
          if_neg (by simpa using same)]
        cases (later.map (·.ends)).findIdx? (· == link.ends) with
        | none => rfl
        | some place => rfl

namespace EdgeTable

/-- The table knows the place of each edge, and of no other. -/
def Finds (table : EdgeTable) : Prop :=
  ∀ pair, table.places.lookup pair = (table.edges.map (·.ends)).findIdx? (· == pair)

variable {table : EdgeTable}

theorem Finds.edges_add (finds : table.Finds) (link : Link) :
    (table.add link).edges = addLink table.edges link := by
  have found := finds link.ends
  rw [addLink_eq, ← found, add, Link.ends]
  cases table.places.lookup (link.source, link.target) with
  | none => rfl
  | some place => rfl

theorem Finds.mem_iff (finds : table.Finds) (pair : String × String) :
    pair ∈ table.edges.map (·.ends) ↔ ∃ place, table.places.lookup pair = some place := by
  rw [finds pair, ← Option.isSome_iff_exists, List.findIdx?_isSome]
  simp

/-- A new edge is behind those that are there, so that it is found only if none of them is. -/
theorem Finds.add (finds : table.Finds) (link : Link) : (table.add link).Finds := by
  intro pair
  rw [finds.edges_add, map_ends_addLink, EdgeTable.add]
  cases held : table.places.lookup (link.source, link.target) with
  | some place =>
      rw [if_pos ((finds.mem_iff link.ends).2 ⟨place, held⟩)]
      exact finds pair
  | none =>
      have fresh : link.ends ∉ table.edges.map (·.ends) := by
        rw [finds.mem_iff, Link.ends, held]
        simp
      rw [if_neg fresh, List.findIdx?_append, ← finds pair, List.lookup_cons, List.length_map]
      by_cases same : pair = link.ends
      · subst same
        rw [Link.ends, held, beq_self_eq_true]
        simp
      · have apart : (pair == (link.source, link.target)) = false := beq_false_of_ne same
        rw [apart]
        simp [Ne.symm same]

theorem finds_empty : empty.Finds :=
  fun _ => rfl

theorem Finds.foldl_add (finds : table.Finds) (links : List Link) :
    (links.foldl EdgeTable.add table).Finds ∧
      (links.foldl EdgeTable.add table).edges = links.foldl addLink table.edges := by
  induction links generalizing table with
  | nil => exact ⟨finds, rfl⟩
  | cons link later ih =>
      rw [List.foldl_cons, List.foldl_cons, ← finds.edges_add]
      exact ih (finds.add link)

theorem edges_ofLinks (links : List Link) : (ofLinks links).edges = aggregate links :=
  (finds_empty.foldl_add links).2

/-- Whatever place is looked up, the edge is there. -/
theorem exists_edge_of_lookup {links : List Link} {pair : String × String} {place : Nat}
    (found : (ofLinks links).places.lookup pair = some place) :
    ∃ e, (ofLinks links).edges[place]? = some e ∧ e.ends = pair := by
  have finds : (ofLinks links).Finds := (finds_empty.foldl_add links).1
  rw [finds pair] at found
  obtain ⟨bound, same, -⟩ := List.findIdx?_eq_some_iff_getElem.1 found
  rw [List.length_map] at bound
  rw [List.getElem_map, beq_iff_eq] at same
  exact ⟨_, List.getElem?_eq_getElem bound, same⟩

end EdgeTable

/-! ## Nodes -/

def Node.counted (edges : List Edge) (node : Node) : Node :=
  { node with
    dependencyCount := node.dependencyCount + edges.countP (·.source == node.id)
    dependentCount := node.dependentCount + edges.countP (·.target == node.id) }

/-- Nodes with the numbers of edges that leave and enter them. Of several nodes with one id, the
last has the numbers. -/
def countReferences (edges : List Edge) : List Node → List Node
  | [] => []
  | node :: later =>
    (if later.any (·.id == node.id) then node else node.counted edges) ::
      countReferences edges later

theorem map_id_countReferences (edges : List Edge) (nodes : List Node) :
    (countReferences edges nodes).map (·.id) = nodes.map (·.id) := by
  induction nodes with
  | nil => rfl
  | cons node later ih =>
      unfold countReferences
      rw [List.map_cons, List.map_cons, ih]
      split <;> rfl

theorem countReferences_node (edges : List Edge) (node : Node) (later : List Node) :
    countReferences edges (node :: later) =
      (if node.id ∈ later.map (·.id) then node else node.counted edges) ::
        countReferences edges later := by
  have known : later.any (·.id == node.id) = true ↔ node.id ∈ later.map (·.id) := by
    simp [List.any_eq_true]
  simp only [countReferences, known]

theorem countReferences_cons (edge : Edge) (edges : List Edge) (nodes : List Node) :
    countReferences (edge :: edges) nodes =
      countReferences edges (countReferences [edge] nodes) := by
  induction nodes with
  | nil => rfl
  | cons node later ih =>
      rw [countReferences_node, countReferences_node [edge], countReferences_node,
        map_id_countReferences, ih]
      have id_eq : (if node.id ∈ later.map (·.id) then node else node.counted [edge]).id =
          node.id := by
        split <;> rfl
      rw [id_eq]
      by_cases known : node.id ∈ later.map (·.id)
      · simp only [if_pos known]
      · simp only [if_neg known, List.cons.injEq, and_true]
        simp only [Node.counted, List.countP_cons, List.countP_nil, Node.mk.injEq, true_and,
          and_true]
        omega

theorem Index.number?_ofList_eq_some_iff {ids : List String} {id : String} {u : Fin ids.length} :
    (ofList ids).number? id = some u ↔ ids.get u = id ∧ id ∉ ids.drop (u + 1) := by
  rw [number?_eq_some_iff, List.mem_drop_iff_getElem]
  refine and_congr_right fun _ => ⟨?_, fun last v above same => last ⟨v - (u + 1), ?_, ?_⟩⟩
  · rintro last ⟨i, bound, there⟩
    exact last ⟨u + 1 + i, by omega⟩ (by change u.val < u.val + 1 + i; omega) there
  · omega
  · rw [← same, name_ofList]
    congr 1
    omega

theorem map_id_changeNode {n : Nat} (index : Index n) (id : String) (change : Node → Node)
    (keeps : ∀ node, (change node).id = node.id) (nodes : List Node) :
    (changeNode index id change nodes).map (·.id) = nodes.map (·.id) := by
  rw [changeNode]
  split
  · refine List.ext_getElem? fun place => ?_
    rw [List.getElem?_map, List.getElem?_map, List.getElem?_modify]
    cases nodes[place]? with
    | none => rfl
    | some node =>
        simp only [Option.map_eq_map, Option.map_some]
        split
        · rw [keeps]
        · rfl
  · rfl

theorem getElem?_changeNode {ids : List String} {nodes : List Node} (named : nodes.map (·.id) = ids)
    (id : String) (change : Node → Node) (place : Nat) :
    (changeNode (.ofList ids) id change nodes)[place]? = nodes[place]?.map fun node =>
      if node.id = id ∧ id ∉ ids.drop (place + 1) then change node else node := by
  cases held : nodes[place]? with
  | none =>
      rw [changeNode]
      split
      · rw [List.getElem?_modify, held]
        rfl
      · exact held
  | some node =>
      have named' : ids[place]? = some node.id := by rw [← named, List.getElem?_map, held]; rfl
      obtain ⟨bound, here⟩ := List.getElem?_eq_some_iff.1 named'
      -- The index has this place under the id only if it is the last one with it.
      have last_iff : (Index.ofList ids).number? id = some ⟨place, bound⟩ ↔
          node.id = id ∧ id ∉ ids.drop (place + 1) := by
        rw [Index.number?_ofList_eq_some_iff, ← here]
        rfl
      simp only [changeNode, Option.map_some, ← last_iff]
      cases (Index.ofList ids).number? id with
      | none => simpa using held
      | some u => simp [List.getElem?_modify, held, Fin.ext_iff]

theorem getElem?_countReferences (edges : List Edge) (nodes : List Node) (place : Nat) :
    (countReferences edges nodes)[place]? = nodes[place]?.map fun node =>
      if node.id ∈ (nodes.map (·.id)).drop (place + 1) then node else node.counted edges := by
  induction nodes generalizing place with
  | nil => rfl
  | cons node later ih =>
      rw [countReferences_node]
      cases place with
      | zero => rfl
      | succ place => exact ih place

theorem countEdge_eq {ids : List String} {nodes : List Node} (named : nodes.map (·.id) = ids)
    (e : Edge) : countEdge (.ofList ids) nodes e = countReferences [e] nodes := by
  refine List.ext_getElem? fun place => ?_
  have kept : (changeNode (.ofList ids) e.source .oneDependency nodes).map (·.id) = ids :=
    (map_id_changeNode _ _ .oneDependency (fun _ => rfl) nodes).trans named
  rw [countEdge, getElem?_changeNode kept, getElem?_changeNode named, getElem?_countReferences,
    named, Option.map_map]
  refine Option.map_congr fun node _ => ?_
  rw [Function.comp_apply]
  have same : (if node.id = e.source ∧ e.source ∉ ids.drop (place + 1) then node.oneDependency
      else node).id = node.id := by
    split <;> rfl
  rw [same]
  -- Only the last node with its id is ever changed, on either side.
  by_cases later : node.id ∈ ids.drop (place + 1)
  · have elsewhere : ∀ id, ¬(node.id = id ∧ id ∉ ids.drop (place + 1)) :=
      fun id ⟨same, last⟩ => last (same ▸ later)
    rw [if_pos later, if_neg (elsewhere _), if_neg (elsewhere _)]
  · have here : ∀ id, (node.id = id ∧ id ∉ ids.drop (place + 1)) ↔ id = node.id :=
      fun id => ⟨fun both => both.1.symm, fun same => ⟨same.symm, same ▸ later⟩⟩
    simp only [if_neg later, here, Node.counted, List.countP_singleton, beq_iff_eq]
    by_cases source : e.source = node.id
    · rw [if_pos source, if_pos source]
      split <;> rfl
    · rw [if_neg source, if_neg source]
      split <;> rfl

theorem countReferences_nil (nodes : List Node) : countReferences [] nodes = nodes := by
  induction nodes with
  | nil => rfl
  | cons node later ih =>
      rw [countReferences_node, ih]
      split <;> rfl

theorem foldl_countEdge {ids : List String} {nodes : List Node} (named : nodes.map (·.id) = ids)
    (edges : List Edge) :
    edges.foldl (countEdge (.ofList ids)) nodes = countReferences edges nodes := by
  induction edges generalizing nodes with
  | nil => exact (countReferences_nil nodes).symm
  | cons e later ih =>
      rw [List.foldl_cons, countEdge_eq named, ih ((map_id_countReferences _ _).trans named),
        ← countReferences_cons]

theorem countEdges_eq (edges : List Edge) (nodes : List Node) :
    countEdges edges nodes = countReferences edges nodes :=
  foldl_countEdge rfl edges

/-! ## The graph of source files -/

namespace Graph

variable (tree : FileTree) (root : Path) (aliases : AliasTable) (files : List SourceFile)

/-- The links from which the edges of a graph are made. -/
def linksFor : List Link :=
  linksOf (Resolver.ofProject root aliases (files.map (·.relativePath))) tree files

theorem assemble_eq :
    let edges := aggregate (linksFor tree root aliases files)
    assemble tree root aliases files =
      ofParts (countReferences edges (files.map .ofSource)) edges := by
  intro edges
  rw [assemble, EdgeTable.edges_ofLinks, countEdges_eq]
  rfl

end Graph

end FileGraph
