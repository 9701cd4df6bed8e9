import FileGraph.Digraph.Breadth
import FileGraph.Digraph.Traversal

/-! # Strongly connected components

Two nodes belong together if each can be got to from the other.

* `components`: the components of a graph. The nodes are taken in the reverse of the order in which
  a search in the depth leaves them; each that belongs to no component yet starts a new one, made
  of the nodes from which it can be got to and that belong to no earlier one.
* `componentOf`: the component of a node, and `componentId` its number.
* `cycleThrough?`: a shortest cycle through a node.
-/

namespace FileGraph.Digraph

variable {n : Nat}

/-- The components found so far, with that of `u` if it is in none of them. -/
def addComponent (backwards : Digraph n) (found : List (List (Fin n))) (u : Fin n) :
    List (List (Fin n)) :=
  let taken := found.flatten
  if taken.contains u then found
  else found ++ [(breadthFirst backwards.next [.start u] (u :: taken)).map (·.node)]

def components (g : Digraph n) : List (List (Fin n)) :=
  let backwards := g.reverse
  g.traverse.finished.foldl (addComponent backwards) []

def componentId (found : List (List (Fin n))) (u : Fin n) : Nat :=
  found.findIdx (·.contains u)

def componentOf (found : List (List (Fin n))) (u : Fin n) : List (Fin n) :=
  (found.find? (·.contains u)).getD []

/-- A shortest cycle through a node that stays in the given component. It begins with the node. -/
def cycleThrough? (g : Digraph n) (component : List (Fin n)) (u : Fin n) :
    Option (List (Fin n)) :=
  let next v := (g.next v).filter (component.contains ·)
  ((trailsFrom next u).find? fun t => (next t.node).contains u).map Trail.path

end FileGraph.Digraph
