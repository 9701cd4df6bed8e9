import FileGraph.Digraph

/-! # Searching in the depth

A search goes down from node to node and comes back when the successors of a node are used up.

* `Traversal`: a search under way, with its stack of frames. The nodes of the frames form the path
  on which the search stands.
* `Traversal.step`: looks at one successor, or goes back one node.
* `Traversal.run`: steps until the stack is empty.
* `traverse`: starts at each node in turn that no earlier search has seen.

A successor on the path closes a cycle: the part of the path from that successor on. The cycles
are kept in the order in which they are closed, and the nodes in the order in which the search
leaves them.
-/

namespace FileGraph.Digraph

variable {n : Nat}

/-- A node on the path, and those of its successors that are not looked at yet. -/
structure Frame (n : Nat) where
  node : Fin n
  rest : List (Fin n)
  deriving DecidableEq, Repr

/-- A search under way. -/
structure Traversal (n : Nat) where
  seen : List (Fin n)
  /-- The path from the present node back to the first. -/
  frames : List (Frame n)
  /-- The cycles closed so far, in order. -/
  closed : List (List (Fin n))
  /-- The nodes left so far, the latest first. -/
  finished : List (Fin n)
  deriving DecidableEq, Repr

namespace Traversal

def empty : Traversal n := ⟨[], [], [], []⟩

def path (t : Traversal n) : List (Fin n) := t.frames.map (·.node)

/-- The part of the path from `v` to the present node. -/
def sliceFrom (t : Traversal n) (v : Fin n) : List (Fin n) :=
  (t.path.takeWhile (· != v) ++ [v]).reverse

def enter (g : Digraph n) (t : Traversal n) (v : Fin n) : Traversal n :=
  { t with seen := v :: t.seen, frames := ⟨v, g.next v⟩ :: t.frames }

/-- Looks at the next successor of the present node, or leaves the node if there is none: an unseen
successor is entered, and one on the path closes a cycle. -/
def step (g : Digraph n) (t : Traversal n) : Traversal n :=
  match t.frames with
  | [] => t
  | ⟨u, []⟩ :: below => { t with frames := below, finished := u :: t.finished }
  | ⟨u, v :: later⟩ :: below =>
    let looked : Traversal n := { t with frames := ⟨u, later⟩ :: below }
    if !t.seen.contains v then looked.enter g v
    else if t.path.contains v then { looked with closed := t.closed ++ [t.sliceFrom v] }
    else looked

/-- How many steps the frames still ask for, their successors not entered. -/
def work (t : Traversal n) : Nat :=
  t.frames.foldr (fun frame work => frame.rest.length + 1 + work) 0

/-- A step sees a further node, or leaves less work. -/
theorem step_decreases (g : Digraph n) {t : Traversal n} (h : t.frames ≠ []) :
    unseen (t.step g).seen < unseen t.seen ∨
      (t.step g).seen = t.seen ∧ (t.step g).work < t.work := by
  unfold step
  split
  · contradiction
  · rename_i u below hf
    exact Or.inr ⟨rfl, by simp [work, hf]⟩
  · rename_i u v later below hf
    dsimp only
    -- Entering an unseen node is the only step that sees more; every other one uses up work.
    split
    · rename_i hv
      have := unseen_cons (show v ∉ t.seen by simpa using hv)
      exact Or.inl (by simp only [enter]; omega)
    · split <;> exact Or.inr ⟨rfl, by simp [work, hf]⟩

def run (g : Digraph n) (t : Traversal n) : Traversal n :=
  if t.frames = [] then t else run g (t.step g)
termination_by (unseen t.seen, t.work)
decreasing_by
  rename_i h
  rcases step_decreases g h with seen | ⟨same, less⟩
  · exact Prod.Lex.left _ _ seen
  · rw [same]
    exact Prod.Lex.right _ less

def visit (g : Digraph n) (t : Traversal n) (u : Fin n) : Traversal n :=
  if t.seen.contains u then t else (t.enter g u).run g

end Traversal

/-- The search of a whole graph, which starts at the nodes in ascending order. -/
def traverse (g : Digraph n) : Traversal n :=
  (List.finRange n).foldl (Traversal.visit g) .empty

end FileGraph.Digraph
