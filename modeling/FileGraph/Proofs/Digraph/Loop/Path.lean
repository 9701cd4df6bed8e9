import FileGraph.Digraph.Loop
import FileGraph.Proofs.Digraph.Breadth

/-! # A shortest path, read off links

The search stops as soon as its target is the next node in the queue. The links that are written by
then lead from each node in the queue back along the trail on which a search in the breadth came to it,
and no link is written twice.

* `PathLoop.Linked`: the links lead from a node back along given nodes.
* `PathLoop.Holds`: the loop has the trails of a search in the breadth in its queue.
* `PathLoop.Holds.foldl_look`: the successors of a node.
* `PathLoop.readOff_run`: what is read off the links is the first trail to the target.
* `pathLoop_eq`: the loop finds the path that a search with whole trails finds.
-/

namespace FileGraph.Digraph

variable {n : Nat} {g : Digraph n} {source target u v w : Fin n}

namespace PathLoop

variable {parents : Vector (Option (Fin n)) n} {before row seen : List (Fin n)} {s : PathLoop n}
  {t : Trail n} {trails : List (Trail n)}

/-! ## Links -/

/-- The links lead from a node past the given nodes, the last of which has no link. -/
inductive Linked (parents : Vector (Option (Fin n)) n) : Fin n → List (Fin n) → Prop where
  | root {v : Fin n} : parents.get v = none → Linked parents v []
  | link {v u : Fin n} {before : List (Fin n)} : parents.get v = some u →
      Linked parents u before → Linked parents v (u :: before)

namespace Linked

variable {before' passed : List (Fin n)}

theorem exists_of_mem (linked : Linked parents v before) (member : w ∈ before) :
    ∃ before', Linked parents w before' ∧ before'.length < before.length := by
  induction linked with
  | root => cases member
  | @link v u before _ rest ih =>
    cases List.mem_cons.1 member with
    | inl same => exact ⟨before, same ▸ rest, Nat.lt_succ_self _⟩
    | inr member =>
      obtain ⟨before', linked, shorter⟩ := ih member
      exact ⟨before', linked, shorter.trans (Nat.lt_succ_self _)⟩

theorem unique (linked : Linked parents v before) (linked' : Linked parents v before') :
    before = before' := by
  induction linked generalizing before' with
  | root none =>
    cases linked' with
    | root => rfl
    | link link => simp [none] at link
  | link link _ ih =>
    cases linked' with
    | root none => simp [none] at link
    | link link' rest =>
      obtain rfl := Option.some.inj (link.symm.trans link')
      rw [ih rest]

theorem nodup (linked : Linked parents v before) : (v :: before).Nodup := by
  induction linked with
  | root => exact List.nodup_singleton _
  | link link rest ih =>
    refine List.nodup_cons.2 ⟨fun again => ?_, ih⟩
    -- From a node that is met again there would be a shorter way, and there is one way only.
    have whole := Linked.link link rest
    obtain ⟨before', linked, shorter⟩ := whole.exists_of_mem again
    rw [linked.unique whole] at shorter
    exact Nat.lt_irrefl _ shorter

theorem climb_passed (linked : Linked parents v before) (apart : ∀ w ∈ before, w ∉ passed) :
    climb parents v (v :: passed) = some (before.reverse ++ v :: passed) := by
  induction linked generalizing passed with
  | root none => rw [PathLoop.climb, none, List.reverse_nil, List.nil_append]
  | @link v u before link rest ih =>
    have alone := (List.nodup_cons.1 (Linked.link link rest).nodup).1
    have apart : ∀ w ∈ u :: before, w ∉ v :: passed := by
      intro w member again
      cases List.mem_cons.1 again with
      | inl same => exact alone (same ▸ member)
      | inr again => exact apart w member again
    obtain ⟨fresh, apart⟩ := List.forall_mem_cons.1 apart
    rw [PathLoop.climb, link]
    dsimp only
    rw [dif_neg (mt List.contains_iff_mem.1 fresh), ih apart, List.reverse_cons, List.append_assoc,
      List.singleton_append]

theorem climb (linked : Linked parents v before) :
    climb parents v [v] = some (before.reverse ++ [v]) :=
  linked.climb_passed fun _ _ => List.not_mem_nil

theorem set (linked : Linked parents v before) (off : w ∉ v :: before) (x : Option (Fin n)) :
    Linked (parents.set w x w.isLt) v before := by
  induction linked with
  | root none =>
    rw [List.mem_singleton] at off
    exact .root (by rw [get_set, if_neg off, none])
  | link link _ ih =>
    obtain ⟨other, off⟩ := not_or.1 (List.mem_cons.not.1 off)
    exact .link (by rw [get_set, if_neg other, link]) (ih off)

end Linked

/-! ## The queue -/

/-- A search that came along a trail, and has marked its nodes. -/
structure Comes (seen : List (Fin n)) (parents : Vector (Option (Fin n)) n) (t : Trail n) : Prop where
  linked : Linked parents t.node t.before
  known : ∀ v ∈ t.node :: t.before, v ∈ seen

/-- The queue holds the last nodes of the trails, and the links lead back along each of them. -/
structure Holds (trails : List (Trail n)) (seen : List (Fin n)) (s : PathLoop n) : Prop where
  queue : s.queue = trails.map (·.node)
  visited_iff : ∀ v : Fin n, s.visited.get v = true ↔ v ∈ seen
  comes : ∀ t ∈ trails, Comes seen s.parents t

/-- Marking and linking one more node leaves the trails as they are. -/
theorem Comes.mark (comes : Comes seen parents t) (unseen : v ∉ seen) (x : Option (Fin n)) :
    Comes (v :: seen) (parents.set v x v.isLt) t where
  linked := comes.linked.set (fun on => unseen (comes.known v on)) x
  known := fun w on => List.mem_cons_of_mem v (comes.known w on)

theorem Comes.extend (comes : Comes seen parents t) (unseen : v ∉ seen) :
    Comes (v :: seen) (parents.set v (some t.node) v.isLt) (t.extend v) where
  linked := .link ((get_set ..).trans (if_pos rfl)) (comes.mark unseen _).linked
  known := List.forall_mem_cons.2 ⟨List.mem_cons_self, (comes.mark unseen none).known⟩

theorem holds_begin (source : Fin n) : Holds [.start source] [source] (.begin source) where
  queue := rfl
  visited_iff := by
    intro v
    rw [begin, get_set, List.mem_singleton, eq_comm (a := v)]
    split <;> simp_all
  comes := List.forall_mem_singleton.2
    { linked := .root (get_replicate none source)
      known := fun _ same => same }

namespace Holds

theorem look (holds : Holds trails seen s) (comes : Comes seen s.parents t) (unseen : v ∉ seen) :
    Holds (trails ++ [t.extend v]) (v :: seen)
      ⟨s.visited.set v true v.isLt, s.parents.set v (some t.node) v.isLt, s.queue ++ [v]⟩ where
  queue := by simp [holds.queue, Trail.extend]
  visited_iff := by
    intro w
    rw [get_set, List.mem_cons]
    by_cases same : v = w
    · simp [same]
    · rw [if_neg same, holds.visited_iff w, or_iff_right (Ne.symm same)]
  comes := by
    refine List.forall_mem_append.2 ⟨?_, List.forall_mem_singleton.2 (comes.extend unseen)⟩
    exact fun r waits => (holds.comes r waits).mark unseen _

theorem foldl_look (holds : Holds trails seen s) (comes : Comes seen s.parents t) :
    Holds (trails ++ (newcomers seen row).map t.extend) (seeAll seen row)
      (row.foldl (PathLoop.look t.node) s) := by
  induction row generalizing trails seen s with
  | nil => simpa [newcomers, seeAll] using holds
  | cons v later ih =>
    rw [List.foldl_cons, newcomers, seeAll, PathLoop.look]
    by_cases known : v ∈ seen
    · have known' := List.contains_iff_mem.2 known
      rw [if_pos ((holds.visited_iff v).2 known), if_pos known', if_pos known']
      exact ih holds comes
    · have unknown := mt List.contains_iff_mem.1 known
      rw [if_neg (mt (holds.visited_iff v).1 known), if_neg unknown, if_neg unknown, List.map_cons,
        List.append_cons trails]
      exact ih (holds.look comes known) (comes.mark known _)

end Holds

/-! ## The whole search -/

/-- What the loop reads off its links in the end is the first trail to the target. -/
theorem readOff_run (holds : Holds trails seen s)
    (ahead : target ∈ seen → target ∈ trails.map (·.node)) :
    (run g target s).readOff target =
      ((breadthFirst g.next trails seen).find? (·.node == target)).map fun t => some t.path := by
  obtain ⟨visited, parents, queue⟩ := s
  fun_induction breadthFirst g.next trails seen generalizing visited parents queue with
  | case1 seen =>
    obtain rfl : queue = [] := holds.queue
    -- A target that was seen would still wait in the queue, which is empty.
    have unseen : visited.get target ≠ true := fun marked =>
      absurd (ahead ((holds.visited_iff target).1 marked)) List.not_mem_nil
    rw [run, readOff, if_neg unseen]
    rfl
  | case2 t trails seen ih =>
    obtain rfl : queue = t.node :: trails.map (·.node) := holds.queue
    obtain ⟨here, waiting⟩ := List.forall_mem_cons.1 holds.comes
    rw [run, List.find?_cons]
    by_cases arrived : t.node = target
    · -- The target is the next node, and the links lead back along its trail.
      subst arrived
      have marked := (holds.visited_iff t.node).2 (here.known _ List.mem_cons_self)
      have path : t.before.reverse ++ [t.node] = t.path := (List.reverse_cons ..).symm
      rw [if_pos rfl, readOff, if_pos marked, here.linked.climb, path, beq_self_eq_true]
      rfl
    · have rest : Holds trails seen ⟨visited, parents, trails.map (·.node)⟩ :=
        ⟨rfl, holds.visited_iff, waiting⟩
      -- The target is not passed by: once it is seen, it waits in the queue.
      have ahead' : target ∈ seeAll seen (g.next t.node) →
          target ∈ (trails ++ (newcomers seen (g.next t.node)).map t.extend).map (·.node) := by
        intro known
        rw [List.map_append, List.mem_append, List.map_map]
        by_cases before : target ∈ seen
        · exact .inl ((List.mem_cons.1 (ahead before)).resolve_left (Ne.symm arrived))
        · have row := (mem_seeAll.1 known).resolve_left before
          exact .inr (List.mem_map.2 ⟨target, mem_newcomers.2 ⟨row, before⟩, rfl⟩)
      rw [if_neg arrived, ih ahead' _ _ _ (rest.foldl_look here), beq_false_of_ne arrived]

end PathLoop

theorem pathLoop_eq (g : Digraph n) (source target : Fin n) :
    g.pathLoop source target = (g.shortestPath? source target).map some := by
  have ahead : target ∈ [source] → target ∈ [Trail.start source].map (·.node) := id
  rw [pathLoop, PathLoop.readOff_run (PathLoop.holds_begin source) ahead, shortestPath?,
    Option.map_map]
  rfl

end FileGraph.Digraph
