import FileGraph.Digraph

/-! # Searching in the breadth

* `Trail`: a node together with the nodes passed on the way to it.
* `newcomers`: the nodes of a row that were not seen before, each once.
* `breadthFirst`: the trails to all nodes that a search meets, nearer nodes first. Every trail is
  complete, so that a path is read off the trail to its last node.
-/

namespace FileGraph.Digraph

variable {n : Nat}

/-- A node and how a search came to it. -/
structure Trail (n : Nat) where
  node : Fin n
  /-- The nodes passed before, the latest first. -/
  before : List (Fin n)
  deriving DecidableEq, Repr

namespace Trail

def start (u : Fin n) : Trail n := ⟨u, []⟩

def extend (t : Trail n) (v : Fin n) : Trail n := ⟨v, t.node :: t.before⟩

/-- The nodes of a trail in the order in which they were passed. -/
def path (t : Trail n) : List (Fin n) := (t.node :: t.before).reverse

end Trail

/-- The nodes of a row that are not seen yet, each once, in the order of the row. -/
def newcomers (seen : List (Fin n)) : List (Fin n) → List (Fin n)
  | [] => []
  | v :: later => if seen.contains v then newcomers seen later else v :: newcomers (v :: seen) later

/-- A list of seen nodes with the newcomers of a row put in front of it one by one. -/
def seeAll (seen : List (Fin n)) : List (Fin n) → List (Fin n)
  | [] => seen
  | v :: later => if seen.contains v then seeAll seen later else seeAll (v :: seen) later

theorem unseen_seeAll (seen row : List (Fin n)) :
    unseen (seeAll seen row) + (newcomers seen row).length = unseen seen := by
  induction row generalizing seen with
  | nil => rfl
  | cons v later ih =>
    unfold seeAll newcomers
    split
    · exact ih seen
    · rename_i hv
      have := ih (v :: seen)
      have := unseen_cons (show v ∉ seen by simpa using hv)
      simp only [List.length_cons]
      omega

/-- The trails of a search that goes on from the trails in `queue`, one after the other. -/
def breadthFirst (next : Fin n → List (Fin n)) :
    (queue : List (Trail n)) → (seen : List (Fin n)) → List (Trail n)
  | [], _ => []
  | t :: queue, seen =>
    t :: breadthFirst next (queue ++ (newcomers seen (next t.node)).map t.extend)
      (seeAll seen (next t.node))
termination_by queue seen => unseen seen + queue.length
decreasing_by
  have := unseen_seeAll seen (next t.node)
  simp only [List.length_append, List.length_map, List.length_cons]
  omega

/-- The trails from a node to all nodes that can be got to, nearer nodes first. -/
def trailsFrom (next : Fin n → List (Fin n)) (u : Fin n) : List (Trail n) :=
  breadthFirst next [.start u] [u]

def shortestPath? (g : Digraph n) (u v : Fin n) : Option (List (Fin n)) :=
  ((trailsFrom g.next u).find? (·.node == v)).map Trail.path

end FileGraph.Digraph
