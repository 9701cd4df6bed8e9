import FileGraph.Proofs.Digraph.Loop.Numbering
import FileGraph.Proofs.Digraph.Shortest

/-! # A shortest cycle, read off links

A search that links each node to the one it came from keeps no trails, but every trail can be read off
the links: a link is never written a second time.

* `CycleLoop.Linked`: the links lead from a node along given nodes to the start.
* `CycleLoop.Holds`: the loop has the trails of a search in the breadth in its queue.
* `CycleLoop.look_of_mem`, `CycleLoop.look_of_not_mem`: the successors of a node, with the start among
  them or not.
* `CycleLoop.run_eq`: what the loop finds is the first trail that leads back.
* `cycleFrom?_shortest`: which nodes have a cycle, and that the loop finds a shortest one.
-/

namespace FileGraph.Digraph

variable {n : Nat} {g : Digraph n} {inside : Fin n → Bool} {start u v w : Fin n}

namespace CycleLoop

variable {parents parents' : Vector (Option (Fin n)) n} {before queue row seen : List (Fin n)}
  {s : CycleLoop n} {t : Trail n} {trails : List (Trail n)}

/-! ## Links -/

/-- The links lead from a node to the start, and pass the given nodes on the way. -/
inductive Linked (parents : Vector (Option (Fin n)) n) (start : Fin n) :
    Fin n → List (Fin n) → Prop where
  | start : Linked parents start start []
  | link {v u : Fin n} {before : List (Fin n)} : v ≠ start → parents.get v = some u →
      Linked parents start u before → Linked parents start v (u :: before)

namespace Linked

variable {before' passed : List (Fin n)}

/-- From each node on the way the links lead to the start as well, and the way is shorter. -/
theorem exists_of_mem (linked : Linked parents start v before) (member : w ∈ before) :
    ∃ before', Linked parents start w before' ∧ before'.length < before.length := by
  induction linked with
  | start => cases member
  | @link v u before _ _ rest ih =>
    cases List.mem_cons.1 member with
    | inl same => exact ⟨before, same ▸ rest, Nat.lt_succ_self _⟩
    | inr member =>
      obtain ⟨before', linked, shorter⟩ := ih member
      exact ⟨before', linked, shorter.trans (Nat.lt_succ_self _)⟩

theorem unique (linked : Linked parents start v before) (linked' : Linked parents start v before') :
    before = before' := by
  induction linked generalizing before' with
  | start =>
    cases linked' with
    | start => rfl
    | link apart => exact absurd rfl apart
  | link apart link _ ih =>
    cases linked' with
    | start => exact absurd rfl apart
    | link _ link' rest =>
      obtain rfl := Option.some.inj (link.symm.trans link')
      rw [ih rest]

theorem nodup (linked : Linked parents start v before) : (v :: before).Nodup := by
  induction linked with
  | start => exact List.nodup_singleton start
  | link apart link rest ih =>
    refine List.nodup_cons.2 ⟨fun again => ?_, ih⟩
    have whole := Linked.link apart link rest
    obtain ⟨before', linked, shorter⟩ := whole.exists_of_mem again
    rw [linked.unique whole] at shorter
    exact Nat.lt_irrefl _ shorter

theorem climb_passed (linked : Linked parents start v before) (apart : ∀ w ∈ before, w ∉ passed) :
    climb parents start v (v :: passed) = some (before.reverse ++ v :: passed) := by
  induction linked generalizing passed with
  | start => rw [CycleLoop.climb, if_pos rfl, List.reverse_nil, List.nil_append]
  | @link v u before other link rest ih =>
    have alone := (List.nodup_cons.1 (Linked.link other link rest).nodup).1
    have apart : ∀ w ∈ u :: before, w ∉ v :: passed := by
      intro w member again
      cases List.mem_cons.1 again with
      | inl same => exact alone (same ▸ member)
      | inr again => exact apart w member again
    obtain ⟨fresh, apart⟩ := List.forall_mem_cons.1 apart
    rw [CycleLoop.climb, if_neg other, link]
    dsimp only
    rw [dif_neg (mt List.contains_iff_mem.1 fresh), ih apart, List.reverse_cons, List.append_assoc,
      List.singleton_append]

theorem climb (linked : Linked parents start v before) :
    climb parents start v [v] = some (before.reverse ++ [v]) :=
  linked.climb_passed fun _ _ => List.not_mem_nil

/-- Linking a node that has no link yet changes no way to the start. -/
theorem set (linked : Linked parents start v before) (fresh : parents.get w = none)
    (x : Option (Fin n)) : Linked (parents.set w x w.isLt) start v before := by
  induction linked with
  | start => exact .start
  | @link v u before apart link _ ih =>
    refine .link apart ?_ ih
    have other : w ≠ v := by
      rintro rfl
      rw [fresh] at link
      cases link
    rw [get_set, if_neg other, link]

end Linked

/-! ## The queue -/

/-- The queue holds the last nodes of the trails, and the links lead back along each of them. The nodes
with a link are the seen ones. -/
structure Holds (start : Fin n) (trails : List (Trail n)) (seen : List (Fin n)) (s : CycleLoop n) :
    Prop where
  queue : s.queue = trails.map (·.node)
  seen_iff : ∀ v : Fin n, s.parents.get v = none ↔ v ∉ seen
  start_seen : start ∈ seen
  linked : ∀ t ∈ trails, Linked s.parents start t.node t.before

theorem holds_begin (start : Fin n) : Holds start [.start start] [start] (.begin start) where
  queue := rfl
  seen_iff := by
    intro v
    rw [begin, get_set]
    by_cases same : start = v
    · simp [same]
    · simp [same, Ne.symm same]
  start_seen := List.mem_cons_self
  linked := List.forall_mem_singleton.2 .start

namespace Holds

theorem link (holds : Holds start trails seen s) (here : Linked s.parents start t.node t.before)
    (fresh : v ∉ seen) :
    Holds start (trails ++ [t.extend v]) (v :: seen)
      ⟨s.parents.set v (some t.node) v.isLt, s.queue ++ [v]⟩ where
  queue := by simp [holds.queue, Trail.extend]
  seen_iff := by
    intro w
    rw [get_set]
    by_cases same : v = w
    · simp [same]
    · rw [if_neg same, holds.seen_iff w, List.mem_cons, or_iff_right (Ne.symm same)]
  start_seen := List.mem_cons_of_mem v holds.start_seen
  linked := by
    have unlinked := (holds.seen_iff v).2 fresh
    refine List.forall_mem_append.2 ⟨?_, List.forall_mem_singleton.2 ?_⟩
    · exact fun r waits => (holds.linked r waits).set unlinked _
    · have apart : v ≠ start := fun same => fresh (same ▸ holds.start_seen)
      exact .link apart ((get_set ..).trans (if_pos rfl)) (here.set unlinked _)

end Holds

/-- If the start is among the successors of the last node of a trail, then the links still lead back
along the trail when it is met. -/
theorem look_of_mem (holds : Holds start trails seen s)
    (here : Linked s.parents start t.node t.before) (back : start ∈ row.filter inside) :
    ∃ parents, look inside start t.node row s = .back parents ∧
      Linked parents start t.node t.before := by
  induction row generalizing trails seen s with
  | nil => cases back
  | cons v later ih =>
    cases within : inside v with
    | false =>
      rw [look, if_pos (by simp [within])]
      exact ih holds here (by simpa [within] using back)
    | true =>
      rw [look, if_neg (by simp [within])]
      by_cases first : v = start
      · exact ⟨s.parents, if_pos first, here⟩
      · rw [if_neg first]
        have back : start ∈ later.filter inside := by simpa [within, Ne.symm first] using back
        by_cases known : v ∈ seen
        · rw [if_neg (mt (holds.seen_iff v).1 (not_not_intro known))]
          exact ih holds here back
        · have unlinked := (holds.seen_iff v).2 known
          rw [if_pos unlinked]
          exact ih (holds.link here known) (here.set unlinked _) back

/-- If the start is not among the successors of the last node of a trail, then its unseen successors
are put into the queue. -/
theorem look_of_not_mem (holds : Holds start trails seen s)
    (here : Linked s.parents start t.node t.before) (away : start ∉ row.filter inside) :
    ∃ s', look inside start t.node row s = .onwards s' ∧
      Holds start (trails ++ (newcomers seen (row.filter inside)).map t.extend)
        (seeAll seen (row.filter inside)) s' := by
  induction row generalizing trails seen s with
  | nil => exact ⟨s, rfl, by simpa [newcomers, seeAll] using holds⟩
  | cons v later ih =>
    cases within : inside v with
    | false =>
      rw [look, if_pos (by simp [within])]
      rw [List.filter_cons_of_neg (by simp [within])] at away ⊢
      exact ih holds here away
    | true =>
      rw [List.filter_cons_of_pos within] at away ⊢
      obtain ⟨first, away⟩ := not_or.1 (List.mem_cons.not.1 away)
      rw [look, if_neg (by simp [within]), if_neg (Ne.symm first), newcomers, seeAll]
      by_cases known : v ∈ seen
      · have known' := List.contains_iff_mem.2 known
        rw [if_neg (mt (holds.seen_iff v).1 (not_not_intro known)), if_pos known', if_pos known']
        exact ih holds here away
      · have unlinked := (holds.seen_iff v).2 known
        have fresh := mt List.contains_iff_mem.1 known
        rw [if_pos unlinked, if_neg fresh, if_neg fresh, List.map_cons, List.append_cons trails]
        exact ih (holds.link here known) (here.set unlinked _) away

/-! ## The whole search -/

theorem run_of_back (looked : look inside start u (g.next u) ⟨parents, queue⟩ = .back parents') :
    run g inside start ⟨parents, u :: queue⟩ = some (climb parents' start u [u]) := by
  rw [run]
  split
  · rename_i here
    obtain rfl : _ = parents' := by simpa [here] using looked
    rfl
  · rename_i here
    simp [here] at looked

theorem run_of_onwards (looked : look inside start u (g.next u) ⟨parents, queue⟩ = .onwards s) :
    run g inside start ⟨parents, u :: queue⟩ = run g inside start s := by
  rw [run]
  split
  · rename_i here
    simp [here] at looked
  · rename_i here
    obtain rfl : _ = s := by simpa [here] using looked
    rfl

/-- The loop finds the first trail of a search in the breadth that leads back to the start. -/
theorem run_eq (holds : Holds start trails seen s) :
    let next v := (g.next v).filter inside
    run g inside start s =
      ((breadthFirst next trails seen).find? fun t => (next t.node).contains start).map
        fun t => some t.path := by
  intro next
  obtain ⟨parents, queue⟩ := s
  fun_induction breadthFirst next trails seen generalizing parents queue with
  | case1 seen =>
    obtain rfl : queue = [] := holds.queue
    rw [run]
    rfl
  | case2 t trails seen ih =>
    obtain rfl : queue = t.node :: trails.map (·.node) := holds.queue
    obtain ⟨here, linked⟩ := List.forall_mem_cons.1 holds.linked
    have rest : Holds start trails seen ⟨parents, trails.map (·.node)⟩ :=
      ⟨rfl, holds.seen_iff, holds.start_seen, linked⟩
    -- Either the cycle closes here, or the unseen successors wait behind the others.
    by_cases back : start ∈ next t.node
    · obtain ⟨parents', looked, here⟩ := look_of_mem rest here back
      have first : (next t.node).contains start = true := List.contains_iff_mem.2 back
      have path : t.before.reverse ++ [t.node] = t.path := (List.reverse_cons ..).symm
      rw [run_of_back looked, here.climb, path, List.find?_cons, first]
      rfl
    · obtain ⟨s', looked, later⟩ := look_of_not_mem rest here back
      have passed : (next t.node).contains start = false :=
        Bool.eq_false_iff.2 (mt List.contains_iff_mem.1 back)
      rw [run_of_onwards looked, ih _ _ later, List.find?_cons, passed]

end CycleLoop

/-- Among the nodes with the same number as a node, the loop finds the cycle that a search in the
component of the node finds. -/
theorem cycleFrom?_numbering (g : Digraph n) (u : Fin n) :
    g.cycleFrom? g.numbering u = (g.cycleThrough? (componentOf g.components u) u).map some := by
  have inside : (fun v : Fin n => g.numbering.get v == g.numbering.get u) =
      (componentOf g.components u).contains := by
    funext v
    rw [Bool.eq_iff_iff, beq_iff_eq, List.contains_iff_mem, mem_componentOf_iff, eq_comm]
    exact get_numbering_eq_iff g u v
  rw [cycleFrom?, inside, CycleLoop.run_eq (CycleLoop.holds_begin u), cycleThrough?, Option.map_map]
  rfl

/-- In a graph without loops, a cycle is found through each node that is not the only one with its
number, and through no other. The cycle begins with the node, all its nodes have the number of the node,
and no cycle of the whole graph that goes through the node is shorter. A missing link is never come to. -/
theorem cycleFrom?_shortest (loopless : g.Loopless) (u : Fin n) :
    let numbers := g.numbering
    let found := g.cycleFrom? numbers u
    found = (g.cycleThrough? (componentOf g.components u) u).map some ∧ found ≠ some none ∧
      (found = none ↔ ∀ v : Fin n, numbers.get v = numbers.get u → v = u) ∧
      ((∃ v : Fin n, v ≠ u ∧ numbers.get v = numbers.get u) →
        ∃ cycle, found = some (some cycle) ∧ cycle.head? = some u ∧ g.IsCycle cycle ∧
          (∀ v ∈ cycle, numbers.get v = numbers.get u) ∧
          ∀ other, g.IsCycle other → u ∈ other → cycle.length ≤ other.length) := by
  intro numbers found
  have mem_iff := mem_componentOf_iff g u
  have same : ∀ v, numbers.get v = numbers.get u ↔ g.Mutual u v := fun v =>
    eq_comm.trans (get_numbering_eq_iff g u v)
  have through : found = (g.cycleThrough? (componentOf g.components u) u).map some :=
    cycleFrom?_numbering g u
  simp only [same]
  refine ⟨through, ?_, ?_, ?_⟩
  · rw [through]
    cases g.cycleThrough? (componentOf g.components u) u <;> simp
  · rw [through, Option.map_eq_none_iff]
    exact cycleThrough?_eq_none_iff loopless mem_iff
  · intro ⟨v, apart, both⟩
    obtain ⟨cycle, here, shortest⟩ := exists_shortest_cycle mem_iff apart both
    exact ⟨cycle, by rw [through, here]; rfl, shortest⟩

/-- A search in the depth closes no cycle through 2 here. -/
theorem cycleFrom?_shortest_left_before :
    let g : Digraph 3 := ofArcs [(0, 1), (0, 2), (2, 1), (1, 0)]
    g.Loopless ∧ g.cycleFrom? g.numbering 2 = some (some [2, 1, 0]) ∧
      ∀ other, g.IsCycle other → 2 ∈ other → 3 ≤ other.length := by
  intro g
  have loopless : g.Loopless := by
    unfold Loopless
    decide +kernel
  -- All nodes are on one cycle, and so they are in one component.
  have around : g.IsCycle [2, 1, 0] := ⟨by decide, by decide, by decide⟩
  have both : ∀ v, g.Mutual 2 v := fun v => around.mutual_of_mem (by decide) (by revert v; decide)
  have within : (componentOf g.components 2).contains = fun _ => true := by
    funext v
    exact List.contains_iff_mem.2 ((mem_componentOf_iff g 2 v).2 (both v))
  obtain ⟨through, -, -, shortest⟩ := cycleFrom?_shortest loopless 2
  have found : g.cycleFrom? g.numbering 2 = some (some [2, 1, 0]) := by
    rw [through, cycleThrough?, within]
    simp [g, ofArcs, trailsFrom, breadthFirst, newcomers, seeAll, Trail.start, Trail.extend,
      Trail.path]
  refine ⟨loopless, found, ?_⟩
  obtain ⟨cycle, here, -, -, -, least⟩ :=
    shortest ⟨0, by decide, (get_numbering_eq_iff g 0 2).2 (both 0).symm⟩
  obtain rfl : cycle = [2, 1, 0] := by simpa [here] using found
  exact least

end FileGraph.Digraph
