import FileGraph.Digraph

/-! # Searches as loops over tables

The searches for cycles once more, in the form of loops that keep a stack or a queue of nodes and a
table with one entry for each node.

* `DepthLoop`: a search in the depth. A frame of its stack counts the successors that are looked at;
  the path, and which nodes are on it, are kept apart from the stack. The loop writes down what it
  does, `Event` by `Event`.
* `numbering`: a number for each node, the same for two nodes if each can be got to from the other.
  The nodes are taken in the reverse of the order in which a search in the depth leaves them.
* `cycleFrom?`: a shortest cycle through a node among the nodes with its number. Each node that the
  search comes to is linked to the one it came from, and the cycle is read off these links.
* `pathLoop`: a shortest path. The search stops at the node that is asked for, and the path is read
  off the links that lead back from there.
-/

namespace FileGraph.Digraph

variable {n : Nat}

theorem get_set {α : Type} (table : Vector α n) (u v : Fin n) (x : α) :
    (table.set u x u.isLt).get v = if u = v then x else table.get v := by
  change (table.set u x u.isLt)[v] = if u = v then x else table[v]
  simp [Vector.getElem_set, Fin.ext_iff]

@[simp] theorem get_replicate {α : Type} (x : α) (u : Fin n) : (Vector.replicate n x).get u = x :=
  Vector.getElem_replicate u.isLt

/-- Once a marked entry is overwritten by one that is not, there is one marked entry less. -/
theorem countP_set {α : Type} (mark : α → Bool) (table : Vector α n) {u : Fin n} {x : α}
    (before : mark (table.get u) = true) (after : mark x = false) :
    (table.set u x u.isLt).countP mark + 1 = table.countP mark := by
  have some : 0 < table.countP mark :=
    Vector.countP_pos_iff.2 ⟨table.get u, Vector.getElem_mem u.isLt, before⟩
  have before : mark table[u.val] = true := before
  rw [Vector.countP_set, if_pos before, if_neg (by simp [after])]
  omega

/-! ## A search in the depth -/

/-- Something that a search in the depth does. -/
inductive Event (n : Nat) where
  | entered (u : Fin n)
  /-- The successor of `u` at a place in its row is looked at. -/
  | examined (u : Fin n) (place : Nat)
  | closed (cycle : List (Fin n))
  | left (u : Fin n)
  deriving DecidableEq, Repr

namespace Event

def cycle? : Event n → Option (List (Fin n))
  | .closed cycle => some cycle
  | _ => none

def left? : Event n → Option (Fin n)
  | .left u => some u
  | _ => none

end Event

/-- A search in the depth under way. -/
structure DepthLoop (n : Nat) where
  visited : Vector Bool n
  onStack : Vector Bool n
  /-- The nodes from the first to the present one. -/
  path : List (Fin n)
  /-- The frames, the present one first: a node, and the place of the successor to look at next. -/
  stack : List (Fin n × Nat)
  /-- What was done so far, in order. -/
  log : List (Event n)
  deriving DecidableEq, Repr

namespace DepthLoop

def start : DepthLoop n := ⟨.replicate n false, .replicate n false, [], [], []⟩

def enter (s : DepthLoop n) (u : Fin n) : DepthLoop n where
  visited := s.visited.set u true u.isLt
  onStack := s.onStack.set u true u.isLt
  path := s.path ++ [u]
  stack := (u, 0) :: s.stack
  log := s.log ++ [.entered u]

def leave (s : DepthLoop n) (u : Fin n) : DepthLoop n where
  visited := s.visited
  onStack := s.onStack.set u false u.isLt
  path := s.path.dropLast
  stack := s.stack.tail
  log := s.log ++ [.left u]

/-- Counts the successor at a place of the present node. -/
def count (s : DepthLoop n) (u : Fin n) (place : Nat) : DepthLoop n :=
  { s with stack := (u, place + 1) :: s.stack.tail, log := s.log ++ [.examined u place] }

/-- Looks at a successor: an unvisited one is entered, and from one on the path the rest of the path is
a cycle. -/
def look (s : DepthLoop n) (v : Fin n) : DepthLoop n :=
  if !s.visited.get v then s.enter v
  else if s.onStack.get v then
    match s.path.idxOf? v with
    | some place => { s with log := s.log ++ [.closed (s.path.drop place)] }
    | none => s
  else s

/-- Looks at the next successor of the present node, or leaves the node if there is none. -/
def step (g : Digraph n) (s : DepthLoop n) : DepthLoop n :=
  match s.stack with
  | [] => s
  | (u, place) :: _ =>
    match (g.next u)[place]? with
    | some v => (s.count u place).look v
    | none => s.leave u

def unvisited (s : DepthLoop n) : Nat :=
  s.visited.countP (!·)

/-- How many steps the frames still ask for, their successors not entered. -/
def work (g : Digraph n) (s : DepthLoop n) : Nat :=
  s.stack.foldr (fun (u, place) work => (g.next u).length - place + 1 + work) 0

theorem look_decreases (g : Digraph n) (s : DepthLoop n) (v : Fin n) :
    (s.look v).unvisited < s.unvisited ∨
      (s.look v).unvisited = s.unvisited ∧ (s.look v).work g = s.work g := by
  unfold look
  split
  · rename_i fresh
    have := countP_set (!·) s.visited (x := true) fresh rfl
    exact Or.inl (by simp only [unvisited, enter]; omega)
  · split
    · split <;> exact Or.inr ⟨rfl, rfl⟩
    · exact Or.inr ⟨rfl, rfl⟩

/-- A step visits a further node, or leaves less work. -/
theorem step_decreases (g : Digraph n) {s : DepthLoop n} (h : s.stack ≠ []) :
    (s.step g).unvisited < s.unvisited ∨
      (s.step g).unvisited = s.unvisited ∧ (s.step g).work g < s.work g := by
  unfold step
  split
  · contradiction
  · rename_i u place below hs
    split
    · rename_i v here
      obtain ⟨bound, -⟩ := List.getElem?_eq_some_iff.1 here
      refine (look_decreases g (s.count u place) v).imp id fun ⟨same, less⟩ => ⟨same, ?_⟩
      rw [less]
      simp only [work, count, hs, List.tail_cons, List.foldr_cons]
      omega
    · refine Or.inr ⟨rfl, ?_⟩
      simp only [work, leave, hs, List.tail_cons, List.foldr_cons]
      omega

def run (g : Digraph n) (s : DepthLoop n) : DepthLoop n :=
  if s.stack = [] then s else run g (s.step g)
termination_by (s.unvisited, s.work g)
decreasing_by
  rename_i h
  rcases step_decreases g h with fewer | ⟨same, less⟩
  · exact Prod.Lex.left _ _ fewer
  · rw [same]
    exact Prod.Lex.right _ less

/-- The search that starts at a node, unless the node is visited already. -/
def visit (g : Digraph n) (s : DepthLoop n) (u : Fin n) : DepthLoop n :=
  if s.visited.get u then s else (s.enter u).run g

def cycles (s : DepthLoop n) : List (List (Fin n)) :=
  s.log.filterMap Event.cycle?

def leftNodes (s : DepthLoop n) : List (Fin n) :=
  s.log.filterMap Event.left?

section Log

variable (s : DepthLoop n) (u : Fin n) (place : Nat)

@[simp] theorem cycles_enter : (s.enter u).cycles = s.cycles := by
  simp [cycles, enter, Event.cycle?]

@[simp] theorem cycles_count : (s.count u place).cycles = s.cycles := by
  simp [cycles, count, Event.cycle?]

@[simp] theorem cycles_leave : (s.leave u).cycles = s.cycles := by
  simp [cycles, leave, Event.cycle?]

@[simp] theorem leftNodes_enter : (s.enter u).leftNodes = s.leftNodes := by
  simp [leftNodes, enter, Event.left?]

@[simp] theorem leftNodes_count : (s.count u place).leftNodes = s.leftNodes := by
  simp [leftNodes, count, Event.left?]

@[simp] theorem leftNodes_leave : (s.leave u).leftNodes = s.leftNodes ++ [u] := by
  simp [leftNodes, leave, Event.left?]

end Log

end DepthLoop

/-- The search that starts at the given nodes in turn. -/
def depthLoop (g : Digraph n) (roots : List (Fin n)) : DepthLoop n :=
  roots.foldl (DepthLoop.visit g) .start

/-! ## Numbering the components -/

/-- The graph with all arcs turned round. A row holds the tails in ascending order, each as often as it
has the arc. -/
def turned (g : Digraph n) : Digraph n :=
  ofArcs ((List.finRange n).flatMap fun u => (g.next u).map fun v => (v, u))

/-- The numbers given so far, and the nodes whose neighbours are still to be looked at. -/
structure NumberLoop (n : Nat) where
  numbers : Vector (Option Nat) n
  stack : List (Fin n)
  deriving DecidableEq, Repr

namespace NumberLoop

/-- Gives a number to a node that has none. -/
def look (number : Nat) (s : NumberLoop n) (v : Fin n) : NumberLoop n :=
  if s.numbers.get v = none then ⟨s.numbers.set v (some number) v.isLt, v :: s.stack⟩ else s

/-- How many nodes have to be numbered or looked at. -/
def work (s : NumberLoop n) : Nat :=
  s.numbers.countP Option.isNone + s.stack.length

theorem work_look (number : Nat) (s : NumberLoop n) (v : Fin n) : (s.look number v).work = s.work := by
  unfold look
  split
  · rename_i fresh
    have := countP_set Option.isNone s.numbers (u := v) (x := some number) (by simp [fresh]) rfl
    simp only [work, List.length_cons]
    omega
  · rfl

theorem work_foldl_look (number : Nat) (row : List (Fin n)) (s : NumberLoop n) :
    (row.foldl (look number) s).work = s.work := by
  induction row generalizing s with
  | nil => rfl
  | cons v row ih => rw [List.foldl_cons, ih, work_look]

/-- Gives a number to all nodes that can be got to and have none. -/
def run (g : Digraph n) (number : Nat) : NumberLoop n → Vector (Option Nat) n
  | ⟨numbers, []⟩ => numbers
  | ⟨numbers, u :: below⟩ => run g number ((g.next u).foldl (look number) ⟨numbers, below⟩)
termination_by s => s.work
decreasing_by
  rw [work_foldl_look]
  simp only [work, List.length_cons]
  omega

end NumberLoop

/-- The numbers given so far, and the next number. -/
structure Numbering (n : Nat) where
  numbers : Vector (Option Nat) n
  next : Nat
  deriving DecidableEq, Repr

/-- Gives the next number to a node and to all that belong to it, unless the node has a number. -/
def Numbering.add (backwards : Digraph n) (s : Numbering n) (u : Fin n) : Numbering n :=
  if s.numbers.get u = none then
    ⟨NumberLoop.run backwards s.next ⟨s.numbers.set u (some s.next) u.isLt, [u]⟩, s.next + 1⟩
  else s

/-- The numbers of the components of a graph, one for each node. -/
def numbering (g : Digraph n) : Vector (Option Nat) n :=
  let order := (g.depthLoop (List.finRange n)).leftNodes
  (order.reverse.foldl (Numbering.add g.turned) ⟨.replicate n none, 0⟩).numbers

/-! ## A shortest cycle -/

/-- For each node that the search came to the node it came from, and the nodes whose successors are
still to be looked at. -/
structure CycleLoop (n : Nat) where
  parents : Vector (Option (Fin n)) n
  queue : List (Fin n)
  deriving DecidableEq, Repr

/-- What comes of looking at the successors of a node: the start of the search is one of them, or the
search goes on. -/
inductive Outlook (n : Nat) where
  | back (parents : Vector (Option (Fin n)) n)
  | onwards (s : CycleLoop n)

namespace CycleLoop

def begin (start : Fin n) : CycleLoop n :=
  ⟨(Vector.replicate n none).set start (some start) start.isLt, [start]⟩

/-- Looks at the successors of `u` that are inside: the start ends the search, and an unlinked node is
linked to `u` and put into the queue. -/
def look (inside : Fin n → Bool) (start u : Fin n) : List (Fin n) → CycleLoop n → Outlook n
  | [], s => .onwards s
  | v :: later, s =>
    if !inside v then look inside start u later s
    else if v = start then .back s.parents
    else if s.parents.get v = none then
      look inside start u later ⟨s.parents.set v (some u) v.isLt, s.queue ++ [v]⟩
    else look inside start u later s

/-- Puts the nodes from `u` back to the start in front of those that were passed on the way to `u`, which
is the first of them. There is no answer if a link is missing, or if the links lead round in a circle. -/
def climb (parents : Vector (Option (Fin n)) n) (start u : Fin n) (passed : List (Fin n)) :
    Option (List (Fin n)) :=
  if u = start then some passed
  else match parents.get u with
    | none => none
    | some above =>
      if _again : passed.contains above then none else climb parents start above (above :: passed)
termination_by unseen passed
decreasing_by
  have := unseen_cons (mt List.contains_iff_mem.2 _again)
  omega

/-- How many nodes have to be linked or looked at. -/
def work (s : CycleLoop n) : Nat :=
  s.parents.countP Option.isNone + s.queue.length

theorem work_look {inside : Fin n → Bool} {start u : Fin n} {row : List (Fin n)} {s t : CycleLoop n}
    (h : look inside start u row s = .onwards t) : t.work = s.work := by
  fun_induction look inside start u row s with
  | case1 s =>
    obtain rfl : s = t := by simpa using h
    rfl
  | case2 v later s outside ih => exact ih h
  | case3 => contradiction
  | case4 v later s inside other fresh ih =>
    have := countP_set Option.isNone s.parents (u := v) (x := some u) (by simp [fresh]) rfl
    rw [ih h]
    simp only [work, List.length_append, List.length_singleton]
    omega
  | case5 v later s inside other known ih => exact ih h

/-- Searches until the start is met again, and reads off the cycle. There is no answer if the start is
not met, and an empty one if a link is missing. -/
def run (g : Digraph n) (inside : Fin n → Bool) (start : Fin n) :
    CycleLoop n → Option (Option (List (Fin n)))
  | ⟨_, []⟩ => none
  | ⟨parents, u :: queue⟩ =>
    match _looked : look inside start u (g.next u) ⟨parents, queue⟩ with
    | .back parents => some (climb parents start u [u])
    | .onwards s => run g inside start s
termination_by s => s.work
decreasing_by
  rw [work_look _looked]
  simp only [work, List.length_cons]
  omega

end CycleLoop

/-- A shortest cycle through a node among the nodes with its number. -/
def cycleFrom? (g : Digraph n) (numbers : Vector (Option Nat) n) (start : Fin n) :
    Option (Option (List (Fin n))) :=
  CycleLoop.run g (fun v => numbers.get v == numbers.get start) start (.begin start)

/-! ## A shortest path -/

/-- Which nodes the search came to, for each of them but the first the node it came from, and the nodes
whose successors are still to be looked at. -/
structure PathLoop (n : Nat) where
  visited : Vector Bool n
  parents : Vector (Option (Fin n)) n
  queue : List (Fin n)
  deriving DecidableEq, Repr

namespace PathLoop

def begin (source : Fin n) : PathLoop n :=
  ⟨(Vector.replicate n false).set source true source.isLt, .replicate n none, [source]⟩

/-- Looks at a successor of `u`: an unvisited one is linked to `u` and put into the queue. -/
def look (u : Fin n) (s : PathLoop n) (v : Fin n) : PathLoop n :=
  if s.visited.get v then s
  else ⟨s.visited.set v true v.isLt, s.parents.set v (some u) v.isLt, s.queue ++ [v]⟩

/-- How many nodes have to be visited or looked at. -/
def work (s : PathLoop n) : Nat :=
  s.visited.countP (!·) + s.queue.length

theorem work_look (u : Fin n) (s : PathLoop n) (v : Fin n) : (s.look u v).work = s.work := by
  unfold look
  split
  · rfl
  · rename_i fresh
    have := countP_set (!·) s.visited (u := v) (x := true) (by simpa using fresh) rfl
    simp only [work, List.length_append, List.length_singleton]
    omega

theorem work_foldl_look (u : Fin n) (row : List (Fin n)) (s : PathLoop n) :
    (row.foldl (look u) s).work = s.work := by
  induction row generalizing s with
  | nil => rfl
  | cons v row ih => rw [List.foldl_cons, ih, work_look]

/-- Searches until the target is the next node in the queue, or the queue is empty. -/
def run (g : Digraph n) (target : Fin n) : PathLoop n → PathLoop n
  | ⟨visited, parents, []⟩ => ⟨visited, parents, []⟩
  | ⟨visited, parents, u :: queue⟩ =>
    if u = target then ⟨visited, parents, queue⟩
    else run g target ((g.next u).foldl (look u) ⟨visited, parents, queue⟩)
termination_by s => s.work
decreasing_by
  rw [work_foldl_look]
  simp only [work, List.length_cons]
  omega

/-- Puts the nodes that the links lead back to from `u` in front of those that were passed on the way to
`u`, which is the first of them. There is no answer if the links lead round in a circle. -/
def climb (parents : Vector (Option (Fin n)) n) (u : Fin n) (passed : List (Fin n)) :
    Option (List (Fin n)) :=
  match parents.get u with
  | none => some passed
  | some above =>
    if _again : passed.contains above then none else climb parents above (above :: passed)
termination_by unseen passed
decreasing_by
  have := unseen_cons (mt List.contains_iff_mem.2 _again)
  omega

/-- The path to a node, if the search came to it. -/
def readOff (s : PathLoop n) (target : Fin n) : Option (Option (List (Fin n))) :=
  if s.visited.get target then some (climb s.parents target [target]) else none

end PathLoop

/-- A shortest path from one node to another. There is no answer if the search does not come to the
target, and an empty one if the links lead round in a circle. -/
def pathLoop (g : Digraph n) (source target : Fin n) : Option (Option (List (Fin n))) :=
  (PathLoop.run g target (.begin source)).readOff target

end FileGraph.Digraph
