import FileGraph.Digraph.Component
import FileGraph.Graph
import FileGraph.Graph.Index

/-! # Cycles of references

* `Cycle.detect`: cycles such that every file that is on a cycle at all is on one of these. First
  come the cycles that a search in the depth closes. It can miss a node whose only way back leads
  through a node left before, so each node of a larger component that is on none of them adds a
  shortest cycle through itself.
* `Cycle.key`: what tells recorded cycles apart. Of cycles with one key, the first is kept.
* `Cycle.markNodes` and `Cycle.markEdges`: which files and edges are on the given cycles.
-/

namespace FileGraph.Cycle

variable {n : Nat}

/-- The key of a cycle: the names of its nodes in ascending order, joined by line feeds. -/
def key (index : Index n) (cycle : List (Fin n)) : String :=
  "\n".intercalate ((cycle.map index.name).mergeSort fun a b => a ≤ b)

/-- A cycle that is kept, and its key. -/
structure Kept (n : Nat) where
  key : String
  cycle : List (Fin n)
  deriving DecidableEq, Repr

/-- The cycles kept so far, with `cycle` if its key is new. -/
def record (index : Index n) (kept : List (Kept n)) (cycle : List (Fin n)) : List (Kept n) :=
  let key := key index cycle
  if kept.any (·.key == key) then kept else kept ++ [⟨key, cycle⟩]

/-- The cycles kept so far, with a cycle through `u` if `u` is on none of them and can be on one. -/
def repair (index : Index n) (g : Digraph n) (components : List (List (Fin n)))
    (kept : List (Kept n)) (u : Fin n) : List (Kept n) :=
  let component := Digraph.componentOf components u
  if kept.any (·.cycle.contains u) || component.length < 2 then kept
  else
    match g.cycleThrough? component u with
    | none => kept
    | some cycle => record index kept cycle

/-- The cycles of a graph whose nodes have names. -/
def detectIn (index : Index n) (g : Digraph n) : List (List (Fin n)) :=
  let closed := g.traverse.closed.foldl (record index) []
  ((List.finRange n).foldl (repair index g g.components) closed).map (·.cycle)

/-- The cycles among files, given by their ids, and references between them. References of a file
to itself, and to or from an id that is not given, do not count. -/
def detect (ids : List String) (references : List (String × String)) : List (List String) :=
  let index := Index.ofList ids
  (detectIn index (index.looplessDigraph references)).map (·.map index.name)

/-! ## Marking -/

/-- The consecutive pairs of a cycle; the last node is followed by the first. -/
def links (cycle : List String) : List (String × String) :=
  cycle.zip (cycle.drop 1 ++ cycle.take 1)

/-- Nodes, marked as circular if they are on one of the cycles. -/
def markNodes (cycles : List (List String)) (nodes : List Node) : List Node :=
  let members := cycles.flatten
  nodes.map fun node => { node with isCircular := members.contains node.id }

/-- Edges, marked as circular if they join neighbours on one of the cycles. -/
def markEdges (cycles : List (List String)) (edges : List Edge) : List Edge :=
  let joined := cycles.flatMap links
  edges.map fun edge => { edge with isCircular := joined.contains (edge.source, edge.target) }

end FileGraph.Cycle
