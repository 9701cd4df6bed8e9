import FileGraph.Extract
import FileGraph.Graph.Cycle

/-! # From source files to a graph

* `Link`: a reference that is resolved to another file.
* `linksOf`: the links of the source files, in the order of the files and of their texts.
* `EdgeTable`: the edges made of links, one for each pair of files, and a table of their places.
* `countEdges`: nodes with the numbers of edges from and to them.
* `Graph.assemble`: the graph of the given source files.
* `Graph.scan`: the graph of the project in a folder.
-/

namespace FileGraph

/-- A reference of one file to another. -/
structure Link where
  source : String
  target : String
  kind : Kind
  deriving DecidableEq, Repr

/-- The links that a source file contributes: what its references resolve to, itself left out. -/
def linksOfFile (resolver : Resolver) (tree : FileTree) (file : SourceFile) : List Link :=
  if file.language.recognised then
    (Extract.references file.language file.content).filterMap fun reference => do
      let target ← resolver.resolve? tree file reference.target
      if target = file.relativePath then none
      else some ⟨file.relativePath, target, reference.kind⟩
  else []

def linksOf (resolver : Resolver) (tree : FileTree) (files : List SourceFile) : List Link :=
  files.flatMap (linksOfFile resolver tree)

/-- The edges that are made so far, and where among them the edge between two files is. -/
structure EdgeTable where
  edges : List Edge
  places : List ((String × String) × Nat)

namespace EdgeTable

def empty : EdgeTable :=
  ⟨[], []⟩

/-- One link more: in the edge between its files if the table has one, else as a new edge. -/
def add (table : EdgeTable) (link : Link) : EdgeTable :=
  match table.places.lookup (link.source, link.target) with
  | some place => { table with edges := table.edges.modify place .another }
  | none =>
    ⟨table.edges ++ [.ofReference link.source link.target link.kind],
      ((link.source, link.target), table.edges.length) :: table.places⟩

/-- The edges made of links: one for each pair of files, in the order of their first links. -/
def ofLinks (links : List Link) : EdgeTable :=
  links.foldl add empty

end EdgeTable

def Node.oneDependency (node : Node) : Node :=
  { node with dependencyCount := node.dependencyCount + 1 }

def Node.oneDependent (node : Node) : Node :=
  { node with dependentCount := node.dependentCount + 1 }

/-- Changes the node that the index has under an id. -/
def changeNode {n : Nat} (index : Index n) (id : String) (change : Node → Node)
    (nodes : List Node) : List Node :=
  match index.number? id with
  | some place => nodes.modify place change
  | none => nodes

/-- Counts an edge at the node that it leaves, then at the one that it enters. -/
def countEdge {n : Nat} (index : Index n) (nodes : List Node) (e : Edge) : List Node :=
  changeNode index e.target .oneDependent (changeNode index e.source .oneDependency nodes)

/-- Nodes with the numbers of edges that leave and enter them. Of several nodes with one id, the
last has the numbers. -/
def countEdges (edges : List Edge) (nodes : List Node) : List Node :=
  edges.foldl (countEdge (.ofList (nodes.map (·.id)))) nodes

namespace Graph

/-- The graph with given nodes and edges: their cycles are found and marked. -/
def ofParts (nodes : List Node) (edges : List Edge) : Graph :=
  let cycles := Cycle.detect (nodes.map (·.id)) (edges.map fun e => (e.source, e.target))
  let nodes := Cycle.markNodes cycles nodes
  let edges := Cycle.markEdges cycles edges
  ⟨nodes, edges, cycles, Summary.compute nodes edges cycles⟩

/-- The graph of source files that belong to the project at `root`. -/
def assemble (tree : FileTree) (root : Path) (aliases : AliasTable) (files : List SourceFile) :
    Graph :=
  let resolver := Resolver.ofProject root aliases (files.map (·.relativePath))
  let edges := (EdgeTable.ofLinks (linksOf resolver tree files)).edges
  ofParts (countEdges edges (files.map .ofSource)) edges

structure ScanOptions where
  /-- Whether files may be looked at side by side; the graph does not depend on it. -/
  isParallel : Bool
  /-- The name of the alias document in the root of the project. -/
  aliasFile : String
  deriving DecidableEq, Repr

def ScanOptions.default : ScanOptions := ⟨true, "tsconfig.json"⟩

/-- The graph of the project in the folder `root`. Aliases that cannot be had are none. -/
def scan (tree : FileTree) (options : ScanOptions) (root : Path) : Except ScanError Graph :=
  match tree.lookup root with
  | .ok (_, .folder entries) =>
    match tree.canonicalize root with
    | .error fault => .error (.unreachable fault)
    | .ok location => do
      let root := location.toPath
      let files ← SourceFile.below tree location root (.folder entries)
      let aliases := (AliasTable.load tree root options.aliasFile).toOption.getD []
      return assemble tree root aliases files
  | _ => .error (.notFolder root)

end Graph

end FileGraph
