import FileGraph.Reference
import FileGraph.Resolver

/-! # File graphs

* `Node`: a file of a project.
* `Edge`: all the references from one file to another.
* `Summary`: the figures of a graph.
* `Graph`: nodes, edges, cycles and summary; `Graph.node?` and `Graph.edge?` look things up.
-/

namespace FileGraph

/-- A file of a project. -/
structure Node where
  id : String
  label : String
  relativePath : String
  language : Language
  /-- The number of bytes. -/
  size : Nat
  lines : Nat
  /-- The colour bucket. -/
  group : Nat
  /-- How many files this one refers to. -/
  dependencyCount : Nat
  /-- How many files refer to this one. -/
  dependentCount : Nat
  isCircular : Bool
  deriving DecidableEq, Repr

/-- The node of a source file, before references are counted. -/
def Node.ofSource (file : SourceFile) : Node where
  id := file.relativePath
  label := Resolver.baseName file.relativePath
  relativePath := file.relativePath
  language := file.language
  size := file.content.utf8ByteSize
  lines := (Text.splitOn '\n' file.content.toList).length
  group := file.language.group
  dependencyCount := 0
  dependentCount := 0
  isCircular := false

/-- All the references from one file to another. -/
structure Edge where
  source : String
  target : String
  count : Nat
  /-- The width at which the edge is drawn. -/
  weight : Nat
  /-- The kind of the first reference. -/
  kind : Kind
  title : String
  isCircular : Bool
  deriving DecidableEq, Repr

namespace Edge

/-- No edge is drawn wider than this. -/
def maxWeight : Nat := 5

/-- The title of an edge: its kind and the number of its references. -/
def titleFor (kind : Kind) (count : Nat) : String :=
  kind.tag ++ " (" ++ Text.Decimal.render count ++
    (if count = 1 then " reference)" else " references)")

/-- An edge of `count` references, the first of the given kind. -/
def ofCount (source target : String) (kind : Kind) (count : Nat) : Edge :=
  ⟨source, target, count, min count maxWeight, kind, titleFor kind count, false⟩

def ofReference (source target : String) (kind : Kind) : Edge :=
  ofCount source target kind 1

def another (e : Edge) : Edge :=
  { e with
    count := e.count + 1
    weight := min (e.count + 1) maxWeight
    title := titleFor e.kind (e.count + 1) }

end Edge

structure Summary where
  totalNodes : Nat
  totalEdges : Nat
  languages : LanguageSet
  cycleCount : Nat
  maxDependencies : Nat
  maxDependents : Nat
  deriving DecidableEq

def Summary.compute (nodes : List Node) (edges : List Edge) (cycles : List (List String)) :
    Summary where
  totalNodes := nodes.length
  totalEdges := edges.length
  languages := .ofList (nodes.map (·.language))
  cycleCount := cycles.length
  maxDependencies := (nodes.map (·.dependencyCount)).foldl max 0
  maxDependents := (nodes.map (·.dependentCount)).foldl max 0

structure Graph where
  nodes : List Node
  edges : List Edge
  /-- The ids of the files on each cycle, in the order of the references. -/
  cycles : List (List String)
  summary : Summary
  deriving DecidableEq

namespace Graph

def node? (g : Graph) (id : String) : Option Node :=
  g.nodes.find? (·.id == id)

def edge? (g : Graph) (source target : String) : Option Edge :=
  g.edges.find? fun e => e.source == source && e.target == target

end Graph

end FileGraph
