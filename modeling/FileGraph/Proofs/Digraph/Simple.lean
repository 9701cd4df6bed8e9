import FileGraph.Proofs.Digraph.Component

/-! # Repeated arcs do not matter

The rows of a graph may hold a successor more than once. Every search looks at such a successor
again, at a moment when it may be on the path or left already, and finds nothing that it did not find
the first time.

* `Digraph.simple`: the graph with the same arcs, in whose rows each successor stands once.
* `Traversal.Shadows`: a search of the simple graph that keeps up with one of the graph itself, which
  alone looks at a successor again.
* `Traversal.Shadows.step`, `Traversal.Shadows.run`, `Traversal.Shadows.visit`: each part of a search
  keeps this.
* `shadows_traverse`, `components_simple`, `cycleThrough?_simple`: what the searches find.
-/

namespace FileGraph.Digraph

variable {n : Nat} {g : Digraph n}

/-- The graph with the same arcs, each once and in the place where it first stood. -/
def simple (g : Digraph n) : Digraph n :=
  ofNext fun u => (g.next u).eraseDups

/-! ## Rows -/

theorem newcomers_cons_of_mem {seen row : List (Fin n)} {v : Fin n} (known : v ∈ seen) :
    newcomers seen (v :: row) = newcomers seen row := by
  simp [newcomers, known]

theorem newcomers_cons_of_not_mem {seen row : List (Fin n)} {v : Fin n} (fresh : v ∉ seen) :
    newcomers seen (v :: row) = v :: newcomers (v :: seen) row := by
  simp [newcomers, fresh]

theorem newcomers_eq_eraseDups (seen row : List (Fin n)) :
    newcomers seen row = (row.filter fun v => !seen.contains v).eraseDups := by
  fun_induction newcomers seen row with
  | case1 => rfl
  | case2 seen v later known ih => rw [ih, List.filter_cons_of_neg (by simpa using known)]
  | case3 seen v later fresh ih =>
    rw [ih, List.filter_cons_of_pos (by simpa using fresh), List.eraseDups_cons, List.filter_filter]
    congr 3
    funext w
    rw [List.contains_cons, Bool.not_or]

/-- A row of the simple graph holds what a search meets that has seen nothing yet. -/
theorem next_simple (g : Digraph n) (u : Fin n) : g.simple.next u = newcomers [] (g.next u) := by
  rw [simple, next_ofNext, newcomers_eq_eraseDups]
  congr 1
  exact (List.filter_eq_self.2 fun _ _ => rfl).symm

theorem mem_next_simple {u v : Fin n} : v ∈ g.simple.next u ↔ v ∈ g.next u := by
  simp [next_simple, mem_newcomers]

/-! ## Searching in the depth -/

/-- `Thinned more less`: `less` is `more` without some of the items that stood there before. -/
inductive Thinned {α : Type} : List α → List α → Prop where
  | nil : Thinned [] []
  | both {more less : List α} (x : α) : Thinned more less → Thinned (more ++ [x]) (less ++ [x])
  | again {more less : List α} {x : α} : Thinned more less → x ∈ more → Thinned (more ++ [x]) less

namespace Traversal

/-- The part of a path from `v` to its end, the path being given from its end. -/
def slice (path : List (Fin n)) (v : Fin n) : List (Fin n) :=
  (path.takeWhile (· != v) ++ [v]).reverse

/-! ### The four kinds of steps -/

section Steps

variable {t : Traversal n} {u v : Fin n} {later : List (Fin n)} {below : List (Frame n)}

theorem step_leave (frames : t.frames = ⟨u, []⟩ :: below) :
    t.step g = { t with frames := below, finished := u :: t.finished } := by
  simp only [step, frames]

theorem step_enter (frames : t.frames = ⟨u, v :: later⟩ :: below) (fresh : v ∉ t.seen) :
    t.step g = ({ t with frames := ⟨u, later⟩ :: below } : Traversal n).enter g v := by
  simp [step, frames, fresh]

theorem step_close (frames : t.frames = ⟨u, v :: later⟩ :: below) (known : v ∈ t.seen)
    (onPath : v ∈ t.path) :
    t.step g = { t with frames := ⟨u, later⟩ :: below, closed := t.closed ++ [slice t.path v] } := by
  simp [step, frames, known, onPath, sliceFrom, slice]

theorem step_pass (frames : t.frames = ⟨u, v :: later⟩ :: below) (known : v ∈ t.seen)
    (off : v ∉ t.path) : t.step g = { t with frames := ⟨u, later⟩ :: below } := by
  simp [step, frames, known, off]

end Steps

theorem run_of_frames_ne_nil {t : Traversal n} (going : t.frames ≠ []) :
    t.run g = (t.step g).run g := by
  conv_lhs => rw [run, if_neg going]

/-! ### Searches side by side -/

/-- Frames with the same nodes. What is left to look at in one of the second is left in the one of
the first as well, apart from successors looked at before; these are seen, and have closed their
cycles. -/
inductive Matched (seen : List (Fin n)) (closed : List (List (Fin n))) :
    List (Frame n) → List (Frame n) → Prop where
  | nil : Matched seen closed [] []
  | cons {u : Fin n} {rest looked : List (Fin n)} {below below' : List (Frame n)} :
      Matched seen closed below below' → looked ⊆ seen →
      (∀ v ∈ looked, v ∈ u :: below.map (·.node) →
        slice (u :: below.map (·.node)) v ∈ closed) →
      Matched seen closed (⟨u, rest⟩ :: below) (⟨u, newcomers looked rest⟩ :: below')

namespace Matched

variable {seen seen' : List (Fin n)} {closed closed' : List (List (Fin n))}
  {frames frames' : List (Frame n)}

theorem map_node (matched : Matched seen closed frames frames') :
    frames'.map (·.node) = frames.map (·.node) := by
  induction matched with
  | nil => rfl
  | cons _ _ _ ih => rw [List.map_cons, List.map_cons, ih]

theorem mono (matched : Matched seen closed frames frames') (more : seen ⊆ seen')
    (more' : closed ⊆ closed') : Matched seen' closed' frames frames' := by
  induction matched with
  | nil => exact .nil
  | cons _ known closes ih =>
    exact .cons ih (List.Subset.trans known more) fun v member onPath =>
      more' (closes v member onPath)

end Matched

/-- A search `s` of the simple graph that keeps up with a search `t` of the graph. It has closed the
same cycles, in the same order, though not as often. -/
structure Shadows (t s : Traversal n) : Prop where
  seen : s.seen = t.seen
  finished : s.finished = t.finished
  closed : Thinned t.closed s.closed
  frames : Matched t.seen t.closed t.frames s.frames

namespace Shadows

variable {t s : Traversal n}

theorem empty : Shadows (.empty : Traversal n) .empty where
  seen := rfl
  finished := rfl
  closed := .nil
  frames := .nil

theorem path (shadows : Shadows t s) : s.path = t.path :=
  shadows.frames.map_node

theorem frames_eq_nil (shadows : Shadows t s) (done : t.frames = []) : s.frames = [] := by
  have names := shadows.frames.map_node
  rw [done] at names
  exact List.map_eq_nil_iff.1 names

theorem enter (shadows : Shadows t s) {frames frames' : List (Frame n)} (v : Fin n)
    (matched : Matched (v :: t.seen) t.closed frames frames') :
    Shadows (({ t with frames := frames } : Traversal n).enter g v)
      (({ s with frames := frames' } : Traversal n).enter g.simple v) where
  seen := congrArg (v :: ·) shadows.seen
  finished := shadows.finished
  closed := shadows.closed
  frames := by
    change Matched (v :: t.seen) t.closed (⟨v, g.next v⟩ :: frames)
      (⟨v, g.simple.next v⟩ :: frames')
    rw [next_simple]
    exact .cons matched (List.nil_subset _) (List.forall_mem_nil _)

section Step

variable {u v : Fin n} {later looked : List (Fin n)} {below below' : List (Frame n)}
  (shadows : Shadows t s) (stack : t.frames = ⟨u, v :: later⟩ :: below)
  (stack' : s.frames = ⟨u, newcomers looked (v :: later)⟩ :: below')
  (matched : Matched t.seen t.closed below below') (known : looked ⊆ t.seen)
  (closes : ∀ w ∈ looked, w ∈ u :: below.map (·.node) →
    slice (u :: below.map (·.node)) w ∈ t.closed)

include shadows stack stack' matched known closes

/-- The search of the graph looks at a successor again. If it is on the path, it closed its cycle the
first time. -/
theorem step_again (before : v ∈ looked) : Shadows (t.step g) s := by
  obtain ⟨sameSeen, sameFinished, thinned, -⟩ := shadows
  have path : t.path = u :: below.map (·.node) := by rw [Traversal.path, stack, List.map_cons]
  have matched : Matched t.seen t.closed (⟨u, later⟩ :: below)
      (⟨u, newcomers looked later⟩ :: below') := .cons matched known closes
  rw [newcomers_cons_of_mem before] at stack'
  by_cases onPath : v ∈ t.path
  · rw [step_close stack (known before) onPath]
    rw [path] at onPath
    refine ⟨sameSeen, sameFinished, thinned.again ?_, ?_⟩
    · rw [path]
      exact closes v before onPath
    · rw [stack']
      exact matched.mono (List.Subset.refl _) (List.subset_append_left _ _)
  · rw [step_pass stack (known before) onPath]
    exact ⟨sameSeen, sameFinished, thinned, stack' ▸ matched⟩

theorem step_both (sound : Sound g t) (fresh : v ∉ looked) :
    Shadows (t.step g) (s.step g.simple) := by
  obtain ⟨sameSeen, sameFinished, thinned, -⟩ := id shadows
  have samePath := shadows.path
  have path : t.path = u :: below.map (·.node) := by rw [Traversal.path, stack, List.map_cons]
  rw [newcomers_cons_of_not_mem fresh] at stack'
  -- What is left to show of each step: if `v` is on the path, its cycle is closed now.
  have closes' : ∀ closed, t.closed ⊆ closed → (v ∈ t.path → slice t.path v ∈ closed) →
      ∀ w ∈ v :: looked, w ∈ u :: below.map (·.node) →
        slice (u :: below.map (·.node)) w ∈ closed := by
    intro closed more own
    rw [path] at own
    exact List.forall_mem_cons.2 ⟨own, fun w member onPath => more (closes w member onPath)⟩
  by_cases seen : v ∈ t.seen
  · have known' : v :: looked ⊆ t.seen := List.cons_subset.2 ⟨seen, known⟩
    by_cases onPath : v ∈ t.path
    · rw [step_close stack seen onPath,
        step_close stack' (sameSeen ▸ seen) (samePath ▸ onPath), samePath]
      have more : t.closed ⊆ t.closed ++ [slice t.path v] := List.subset_append_left _ _
      exact ⟨sameSeen, sameFinished, thinned.both _,
        .cons (matched.mono (List.Subset.refl _) more) known'
          (closes' _ more fun _ => List.mem_append_right _ List.mem_cons_self)⟩
    · rw [step_pass stack seen onPath, step_pass stack' (sameSeen ▸ seen) (samePath ▸ onPath)]
      exact ⟨sameSeen, sameFinished, thinned, .cons matched known'
        (closes' _ (List.Subset.refl _) fun again => absurd again onPath)⟩
  · rw [step_enter stack seen, step_enter stack' (sameSeen ▸ seen)]
    have more : t.seen ⊆ v :: t.seen := List.subset_cons_self v t.seen
    refine shadows.enter v (.cons (matched.mono more (List.Subset.refl _)) ?_ ?_)
    · exact List.cons_subset_cons v known
    · exact closes' _ (List.Subset.refl _) fun onPath =>
        absurd ((sound.mem_seen v).2 (.inl onPath)) seen

end Step

/-- One step of the search of the graph: it looks at a successor again, or the search of the simple
graph takes the same step. -/
theorem step (sound : Sound g t) (shadows : Shadows t s) (going : t.frames ≠ []) :
    Shadows (t.step g) s ∨ s.frames ≠ [] ∧ Shadows (t.step g) (s.step g.simple) := by
  obtain ⟨sameSeen, sameFinished, thinned, frames⟩ := id shadows
  generalize stack : t.frames = stack at frames going
  generalize stack' : s.frames = stack' at frames
  cases frames with
  | nil => exact absurd rfl going
  | @cons u rest looked below below' matched known closes =>
    cases rest with
    | nil =>
      refine .inr ⟨List.cons_ne_nil _ _, ?_⟩
      rw [step_leave stack, step_leave stack']
      exact ⟨sameSeen, congrArg (u :: ·) sameFinished, thinned, matched⟩
    | cons v later =>
      by_cases before : v ∈ looked
      · exact .inl (shadows.step_again stack stack' matched known closes before)
      · exact .inr ⟨List.cons_ne_nil _ _,
          shadows.step_both stack stack' matched known closes sound before⟩

theorem run (sound : Sound g t) (shadows : Shadows t s) :
    Shadows (t.run g) (s.run g.simple) := by
  -- On the longer run: the shorter one waits while a successor is looked at again.
  fun_induction Traversal.run g t generalizing s with
  | case1 t done =>
    have done' := shadows.frames_eq_nil done
    rwa [Traversal.run, if_pos done']
  | case2 t going ih =>
    cases shadows.step sound going with
    | inl stays => exact ih sound.step stays
    | inr steps =>
      obtain ⟨going', steps⟩ := steps
      rw [run_of_frames_ne_nil going']
      exact ih sound.step steps

theorem visit (sound : Sound g t) (idle : t.frames = []) (shadows : Shadows t s) (u : Fin n) :
    Shadows (t.visit g u) (s.visit g.simple u) := by
  unfold Traversal.visit
  rw [shadows.seen]
  split
  · exact shadows
  · next fresh =>
    have matched : Matched (u :: t.seen) t.closed t.frames s.frames :=
      shadows.frames.mono (List.subset_cons_self u t.seen) (List.Subset.refl _)
    exact (shadows.enter u matched).run (sound.enter_of_idle idle (by simpa using fresh))

end Shadows

end Traversal

open Traversal (Sound Shadows)

theorem shadows_foldl_visit (roots : List (Fin n)) {t s : Traversal n} (sound : Sound g t)
    (idle : t.frames = []) (shadows : Shadows t s) :
    Shadows (roots.foldl (Traversal.visit g) t) (roots.foldl (Traversal.visit g.simple) s) := by
  induction roots generalizing t s with
  | nil => exact shadows
  | cons u roots ih =>
    exact ih (sound.visit idle u) (Traversal.frames_visit idle u) (shadows.visit sound idle u)

theorem shadows_traverse (g : Digraph n) : Shadows g.traverse g.simple.traverse :=
  shadows_foldl_visit (List.finRange n) .empty rfl .empty

/-! ## Components and shortest cycles -/

theorem reverse_simple (g : Digraph n) : g.simple.reverse = g.reverse := by
  have same : g.simple.predecessors = g.predecessors := by
    funext v
    unfold predecessors
    congr 1
    funext u
    rw [Bool.eq_iff_iff, List.contains_iff_mem, List.contains_iff_mem, mem_next_simple]
  rw [reverse, same, reverse]

theorem components_simple (g : Digraph n) : g.simple.components = g.components := by
  unfold components
  rw [reverse_simple, (shadows_traverse g).finished]

theorem newcomers_filter (part : Fin n → Bool) (row : List (Fin n)) {looked seen : List (Fin n)}
    (known : ∀ v ∈ looked, part v = true → v ∈ seen) :
    newcomers seen ((newcomers looked row).filter part) = newcomers seen (row.filter part) ∧
      seeAll seen ((newcomers looked row).filter part) = seeAll seen (row.filter part) := by
  induction row generalizing looked seen with
  | nil => exact ⟨rfl, rfl⟩
  | cons v row ih =>
    -- A node that was looked at before is only taken once, and it is seen if it is in the part.
    by_cases before : v ∈ looked
    · rw [newcomers_cons_of_mem before]
      by_cases inside : part v = true
      · have seen := known v before inside
        simp only [List.filter_cons_of_pos inside, newcomers, seeAll,
          List.contains_iff_mem.2 seen, ↓reduceIte]
        exact ih known
      · rw [List.filter_cons_of_neg inside]
        exact ih known
    · rw [newcomers_cons_of_not_mem before]
      by_cases inside : part v = true
      · simp only [List.filter_cons_of_pos inside, newcomers, seeAll]
        split
        · next seen =>
          exact ih (List.forall_mem_cons.2 ⟨fun _ => List.contains_iff_mem.1 seen, known⟩)
        · have known' : ∀ w ∈ v :: looked, part w = true → w ∈ v :: seen :=
            List.forall_mem_cons.2 ⟨fun _ => List.mem_cons_self, fun w member inside =>
              List.mem_cons_of_mem v (known w member inside)⟩
          rw [(ih known').1, (ih known').2]
          exact ⟨rfl, rfl⟩
      · rw [List.filter_cons_of_neg inside, List.filter_cons_of_neg inside]
        exact ih (List.forall_mem_cons.2 ⟨fun inside' => absurd inside' inside, known⟩)

theorem breadthFirst_congr {next next' : Fin n → List (Fin n)}
    (same : ∀ u seen, newcomers seen (next' u) = newcomers seen (next u) ∧
      seeAll seen (next' u) = seeAll seen (next u))
    (queue : List (Trail n)) (seen : List (Fin n)) :
    breadthFirst next' queue seen = breadthFirst next queue seen := by
  fun_induction breadthFirst next queue seen with
  | case1 => rw [breadthFirst]
  | case2 t queue seen ih => rw [breadthFirst, (same t.node seen).1, (same t.node seen).2, ih]

theorem cycleThrough?_simple (g : Digraph n) (component : List (Fin n)) (u : Fin n) :
    g.simple.cycleThrough? component u = g.cycleThrough? component u := by
  have trails : trailsFrom (fun v => (g.simple.next v).filter (component.contains ·)) u =
      trailsFrom (fun v => (g.next v).filter (component.contains ·)) u := by
    refine breadthFirst_congr (fun v seen => ?_) _ _
    rw [next_simple]
    exact newcomers_filter _ _ (List.forall_mem_nil _)
  have returns : ∀ v, ((g.simple.next v).filter (component.contains ·)).contains u =
      ((g.next v).filter (component.contains ·)).contains u := by
    intro v
    rw [Bool.eq_iff_iff, List.contains_iff_mem, List.contains_iff_mem, List.mem_filter,
      List.mem_filter, mem_next_simple]
  simp only [cycleThrough?, trails, returns]

end FileGraph.Digraph
