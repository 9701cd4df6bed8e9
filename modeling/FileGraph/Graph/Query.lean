import FileGraph.Digraph.Loop
import FileGraph.Graph
import FileGraph.Graph.Index
import FileGraph.Text.Ordered

/-! # Questions about a graph

* `Graph.connected`: the files directly joined to a file.
* `Graph.hubs`: the files with the most edges.
* `Graph.shortestPath`: the shortest way from one file to another along references.
-/

namespace FileGraph

/-! ## Neighbours -/

/-- Which neighbours of a file are asked for. -/
inductive Direction where
  /-- The files it refers to. -/
  | dependencies
  /-- The files that refer to it. -/
  | dependents
  | both
  deriving DecidableEq, Repr

namespace Direction

def followsOut : Direction → Bool
  | dependencies | both => true
  | dependents => false

def followsIn : Direction → Bool
  | dependents | both => true
  | dependencies => false

end Direction

/-- The id that a file argument stands for: leading pieces `./` do not count, and a backslash
stands for a slash. -/
def cleanId (file : String) : String :=
  String.ofList ((Text.trimHere file.toList).map fun c => if c = '\\' then '/' else c)

/-- The neighbour of a file that an edge contributes. Both ends count for an edge of a file to
itself. -/
def Edge.neighbours (direction : Direction) (file : String) (e : Edge) : List String :=
  (if direction.followsOut && e.source == file then [e.target] else []) ++
    if direction.followsIn && e.target == file then [e.source] else []

/-- The files directly joined to the file with an id, in ascending order. -/
def Graph.connected (g : Graph) (file : String) (direction : Direction) : List String :=
  Text.orderedSet (g.edges.flatMap (·.neighbours direction file))

/-! ## Hubs -/

/-- By which number of edges files are ranked. -/
inductive Metric where
  /-- Edges that enter. -/
  | entering
  /-- Edges that leave. -/
  | leaving
  | total
  deriving DecidableEq, Repr

structure Hub where
  id : String
  dependents : Nat
  dependencies : Nat
  deriving DecidableEq, Repr

/-- How many values a machine word has. -/
def wordSize : Nat := UInt64.size

/-- The number by which a file is ranked. Sums are taken in machine words. -/
def Hub.rank (metric : Metric) (hub : Hub) : Nat :=
  match metric with
  | .entering => hub.dependents
  | .leaving => hub.dependencies
  | .total => (hub.dependents + hub.dependencies) % wordSize

def Hub.ofNode (node : Node) : Hub :=
  ⟨node.id, node.dependentCount, node.dependencyCount⟩

/-- Whether one file may stand before another: its number is greater, or the numbers are equal and
its id is not greater. -/
def Hub.before (metric : Metric) (a b : Hub) : Bool :=
  b.rank metric < a.rank metric || (a.rank metric == b.rank metric && decide (a.id ≤ b.id))

/-- The `top` files with the greatest numbers; files that rank alike keep their order. -/
def Graph.hubs (g : Graph) (metric : Metric) (top : Nat) : List Hub :=
  ((g.nodes.map .ofNode).mergeSort (Hub.before metric)).take top

/-! ## Shortest paths -/

/-- The ids on a shortest way from one file to another; empty if there is none. -/
def Graph.shortestPath (g : Graph) (source target : String) : List String :=
  let index := Index.ofList (g.nodes.map (·.id))
  let digraph := index.digraph (g.edges.map fun e => (e.source, e.target))
  let path := do
    (digraph.pathLoop (← index.number? source) (← index.number? target)).join
  (path.getD []).map index.name

end FileGraph
