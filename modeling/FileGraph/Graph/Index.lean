import FileGraph.Digraph

/-! # Numbering ids

Searches run on numbered nodes. `Index` gives the names of the numbers:

* `Index.number?`: the number of a name; of several nodes with one name it is the last.
* `Index.digraph`: the graph whose arcs are given by names; an arc to or from a name that is not
  there is left out.
-/

namespace FileGraph

/-- The names of `n` numbered nodes. -/
structure Index (n : Nat) where
  names : Vector String n

namespace Index

variable {n : Nat}

/-- The numbering of a list of names by their places. -/
def ofList (names : List String) : Index names.length :=
  ⟨⟨names.toArray, by simp⟩⟩

def name (index : Index n) (u : Fin n) : String :=
  index.names.get u

/-- The last number with a name. -/
def number? (index : Index n) (name : String) : Option (Fin n) :=
  (List.finRange n).reverse.find? fun u => index.name u == name

/-- The arcs, as numbers, whose ends are both there. -/
def arcs (index : Index n) (arcs : List (String × String)) : List (Fin n × Fin n) :=
  arcs.filterMap fun (source, target) => do
    return (← index.number? source, ← index.number? target)

def digraph (index : Index n) (arcs : List (String × String)) : Digraph n :=
  .ofArcs (index.arcs arcs)

/-- The graph with the given arcs that join different nodes. -/
def looplessDigraph (index : Index n) (arcs : List (String × String)) : Digraph n :=
  .ofArcs ((index.arcs arcs).filter fun (u, v) => u != v)

end Index

end FileGraph
