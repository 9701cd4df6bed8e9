import FileGraph.Proofs.Digraph.Component

/-! # A search in the breadth meets nearer nodes first

* `IsRow`: a row of nodes from one node to another, each followed by one of its successors.
* `Layered`: the trails in the queue ascend in length and differ by a step at most.
* `breadthFirst_near`: to a successor of whatever the search meets there is a trail that is longer by
  a step at most.
* `Layered.pairwise_breadthFirst`, `length_path_le_of_find?`: what the search meets ascends in length,
  so that the first trail that passes a test is a shortest one.
* `shortestPath?_eq_none_iff`, `shortest_of_shortestPath?`: a path is found exactly if there is a row,
  and no row is shorter.
* `exists_shortest_cycle`, `cycleThrough?_eq_none_iff`: a cycle through a node is found exactly if the
  node is not alone in its component, and no cycle through the node is shorter.
-/

namespace FileGraph.Digraph

variable {n : Nat}

/-- A row of nodes from `u` to `v`, each followed by one of its successors. -/
structure IsRow (next : Fin n → List (Fin n)) (u v : Fin n) (row : List (Fin n)) : Prop where
  chain : List.IsChain (fun a b => b ∈ next a) row
  head : row.head? = some u
  last : row.getLast? = some v

variable {next : Fin n → List (Fin n)} {queue met : List (Trail n)} {seen : List (Fin n)}
  {u v : Fin n}

/-! ## Layers of the queue -/

/-- Trails that ascend in length and differ by a step at most. -/
structure Layered (queue : List (Trail n)) : Prop where
  ascending : queue.Pairwise fun s t => s.before.length ≤ t.before.length
  narrow : ∀ s ∈ queue, ∀ t ∈ queue, t.before.length ≤ s.before.length + 1

theorem Trail.length_path (t : Trail n) : t.path.length = t.before.length + 1 := by
  simp [path]

theorem layered_start (u : Fin n) : Layered [Trail.start u] where
  ascending := List.pairwise_singleton _ _
  narrow := by
    intro s first t second
    obtain rfl := List.mem_singleton.1 first
    obtain rfl := List.mem_singleton.1 second
    exact Nat.le_succ _

/-- Whatever waits behind the first trail is no shorter, and longer by a step at most. -/
theorem Layered.between {t s : Trail n} (layered : Layered (t :: queue)) (waits : s ∈ queue) :
    t.before.length ≤ s.before.length ∧ s.before.length ≤ t.before.length + 1 :=
  ⟨(List.pairwise_cons.1 layered.ascending).1 s waits,
    layered.narrow t List.mem_cons_self s (List.mem_cons_of_mem t waits)⟩

theorem Layered.advance {t : Trail n} (layered : Layered (t :: queue)) (row : List (Fin n)) :
    Layered (queue ++ row.map t.extend) := by
  have bounds : ∀ s ∈ queue ++ row.map t.extend,
      t.before.length ≤ s.before.length ∧ s.before.length ≤ t.before.length + 1 := by
    intro s waits
    cases List.mem_append.1 waits with
    | inl waits => exact layered.between waits
    | inr new =>
      obtain ⟨v, -, rfl⟩ := List.mem_map.1 new
      exact ⟨Nat.le_succ _, Nat.le_refl _⟩
  refine ⟨?_, ?_⟩
  · refine List.pairwise_append.2 ⟨(List.pairwise_cons.1 layered.ascending).2, ?_, ?_⟩
    · rw [List.pairwise_map]
      exact List.pairwise_of_forall fun _ _ => Nat.le_refl _
    · intro s waits r new
      obtain ⟨v, -, rfl⟩ := List.mem_map.1 new
      exact (layered.between waits).2
  · intro s first r second
    have := (bounds s first).1
    have := (bounds r second).2
    omega

theorem le_length_of_mem_breadthFirst {length : Nat}
    (bound : ∀ t ∈ queue, length ≤ t.before.length) :
    ∀ t ∈ breadthFirst next queue seen, length ≤ t.before.length := by
  fun_induction breadthFirst next queue seen with
  | case1 => exact bound
  | case2 t queue seen ih =>
    obtain ⟨here, waits⟩ := List.forall_mem_cons.1 bound
    refine List.forall_mem_cons.2 ⟨here, ih (List.forall_mem_append.2 ⟨waits, ?_⟩)⟩
    exact List.forall_mem_map.2 fun v _ => here.trans (Nat.le_succ _)

theorem Layered.pairwise_breadthFirst (layered : Layered queue) :
    (breadthFirst next queue seen).Pairwise fun s t => s.before.length ≤ t.before.length := by
  fun_induction breadthFirst next queue seen with
  | case1 => exact .nil
  | case2 t queue seen ih =>
    refine List.pairwise_cons.2 ⟨le_length_of_mem_breadthFirst ?_, ih (layered.advance _)⟩
    refine List.forall_mem_append.2 ⟨fun s waits => (layered.between waits).1, ?_⟩
    exact List.forall_mem_map.2 fun v _ => Nat.le_succ _

/-- To a successor of whatever the search meets there is a trail that is longer by a step at most.
`met` holds the trails of the whole search, those that were met before as well. -/
theorem breadthFirst_near (layered : Layered queue)
    (known : ∀ v ∈ seen, ∃ s ∈ met, s.node = v ∧
      ∀ t ∈ queue, s.before.length ≤ t.before.length + 1)
    (all : breadthFirst next queue seen ⊆ met) :
    ∀ t ∈ breadthFirst next queue seen, ∀ v ∈ next t.node,
      ∃ s ∈ met, s.node = v ∧ s.before.length ≤ t.before.length + 1 := by
  fun_induction breadthFirst next queue seen with
  | case1 => exact fun t member => absurd member List.not_mem_nil
  | case2 t queue seen ih =>
    have new : ∀ v ∈ newcomers seen (next t.node), t.extend v ∈ met := by
      intro v fresh
      refine all (List.mem_cons_of_mem t (mem_breadthFirst_of_mem_queue ?_))
      exact List.mem_append_right _ (List.mem_map_of_mem fresh)
    have later : ∀ s ∈ queue ++ (newcomers seen (next t.node)).map t.extend,
        t.before.length ≤ s.before.length := by
      intro s waits
      cases List.mem_append.1 waits with
      | inl waits => exact (layered.between waits).1
      | inr fresh =>
        obtain ⟨v, -, rfl⟩ := List.mem_map.1 fresh
        exact Nat.le_succ _
    intro s member v arc
    cases List.mem_cons.1 member with
    | inl first =>
      obtain rfl := first
      by_cases old : v ∈ seen
      · obtain ⟨r, inside, node, near⟩ := known v old
        exact ⟨r, inside, node, near s List.mem_cons_self⟩
      · exact ⟨s.extend v, new v (mem_newcomers.2 ⟨arc, old⟩), rfl, Nat.le_refl _⟩
    | inr behind =>
      refine ih (layered.advance _) ?_ (List.subset_of_cons_subset all) s behind v arc
      -- The queue that is left begins no nearer, so what was near stays near.
      intro w looked
      by_cases old : w ∈ seen
      · obtain ⟨r, inside, node, near⟩ := known w old
        have first := near t List.mem_cons_self
        exact ⟨r, inside, node, fun s waits => first.trans (Nat.succ_le_succ (later s waits))⟩
      · have fresh := mem_newcomers.2 ⟨(mem_seeAll.1 looked).resolve_left old, old⟩
        exact ⟨t.extend w, new w fresh, rfl, fun s waits => Nat.succ_le_succ (later s waits)⟩

theorem length_path_le_of_find? {p : Trail n → Bool} {s t : Trail n}
    (first : (trailsFrom next u).find? p = some s) (met : t ∈ trailsFrom next u) (passes : p t) :
    s.path.length ≤ t.path.length := by
  obtain ⟨-, earlier, later, split, failed⟩ := List.find?_eq_some_iff_append.1 first
  have here : t ∈ s :: later := by
    refine (List.mem_append.1 (split ▸ met)).resolve_left fun before => ?_
    simpa [passes] using failed t before
  rw [Trail.length_path, Trail.length_path]
  cases List.mem_cons.1 here with
  | inl same => exact same ▸ Nat.le_refl _
  | inr behind =>
    have ascending : (earlier ++ s :: later).Pairwise fun s t => s.before.length ≤ t.before.length :=
      split ▸ (layered_start u).pairwise_breadthFirst
    have onwards := (List.pairwise_append.1 ascending).2.1
    exact Nat.succ_le_succ ((List.pairwise_cons.1 onwards).1 t behind)

/-! ## Shortest rows -/

theorem exists_trail_of_isRow {row : List (Fin n)} (isRow : IsRow next u v row) :
    ∃ t ∈ trailsFrom next u, t.node = v ∧ t.path.length ≤ row.length := by
  induction row using List.reverseRecOn generalizing v with
  | nil => cases isRow.head
  | append_singleton row w ih =>
    obtain rfl : w = v := by simpa using isRow.last
    cases ended : row.getLast? with
    | none =>
      -- A row of one node begins where it ends.
      obtain rfl := List.getLast?_eq_none_iff.1 ended
      obtain rfl : w = u := by simpa using isRow.head
      exact ⟨.start w, mem_breadthFirst_of_mem_queue (List.mem_singleton_self _), rfl, Nat.le_refl _⟩
    | some x =>
      have filled : row ≠ [] := by
        rintro rfl
        cases ended
      obtain ⟨chain, -, arc⟩ := List.isChain_append.1 isRow.chain
      have head : row.head? = some u := by
        rw [← isRow.head, List.head?_append_of_ne_nil row filled]
      obtain ⟨t, inside, rfl, near⟩ := ih ⟨chain, head, ended⟩
      have known : ∀ a ∈ [u], ∃ s ∈ trailsFrom next u, s.node = a ∧
          ∀ t ∈ [Trail.start u], s.before.length ≤ t.before.length + 1 := by
        intro a same
        obtain rfl := List.mem_singleton.1 same
        exact ⟨.start a, mem_breadthFirst_of_mem_queue (List.mem_singleton_self _), rfl,
          fun _ _ => Nat.zero_le _⟩
      obtain ⟨s, member, node, step⟩ := breadthFirst_near (layered_start u) known
        (List.Subset.refl _) t inside w (arc _ ended w rfl)
      refine ⟨s, member, node, ?_⟩
      rw [Trail.length_path] at near ⊢
      rw [List.length_append, List.length_singleton]
      omega

variable {g : Digraph n} {path : List (Fin n)}

theorem isRow_path {t : Trail n} (member : t ∈ trailsFrom next u) : IsRow next u t.node t.path :=
  have leads := leadsFrom_of_mem_breadthFirst (List.mem_singleton_self u) t member
  ⟨leads.chain, leads.head, t.getLast?_path⟩

theorem shortestPath?_eq_none_iff : g.shortestPath? u v = none ↔ ∀ row, ¬ IsRow g.next u v row := by
  rw [shortestPath?, Option.map_eq_none_iff, List.find?_eq_none]
  constructor
  · intro missing row isRow
    obtain ⟨t, member, node, -⟩ := exists_trail_of_isRow isRow
    exact missing t member (beq_iff_eq.2 node)
  · intro missing t member node
    exact missing t.path (beq_iff_eq.1 node ▸ isRow_path member)

/-- The path that is found is a row without repeated nodes, and no row is shorter. -/
theorem shortest_of_shortestPath? (found : g.shortestPath? u v = some path) :
    IsRow g.next u v path ∧ path.Nodup ∧ ∀ row, IsRow g.next u v row → path.length ≤ row.length := by
  obtain ⟨t, first, rfl⟩ := Option.map_eq_some_iff.1 found
  have member := List.mem_of_find?_eq_some first
  obtain rfl : t.node = v := by simpa using List.find?_some first
  have leads := leadsFrom_of_mem_breadthFirst (List.mem_singleton_self u) t member
  refine ⟨isRow_path member, leads.nodup, ?_⟩
  intro row isRow
  obtain ⟨s, met, node, short⟩ := exists_trail_of_isRow isRow
  exact (length_path_le_of_find? first met (beq_iff_eq.2 node)).trans short

/-! ## Shortest cycles -/

theorem head?_of_cycleThrough? {component cycle : List (Fin n)}
    (found : g.cycleThrough? component u = some cycle) : cycle.head? = some u := by
  obtain ⟨t, first, rfl⟩ := Option.map_eq_some_iff.1 found
  exact (leadsFrom_of_mem_breadthFirst List.mem_cons_self t (List.mem_of_find?_eq_some first)).head

theorem length_le_of_cycleThrough? {component cycle other : List (Fin n)}
    (mem_iff : ∀ w, w ∈ component ↔ g.Mutual u w)
    (found : g.cycleThrough? component u = some cycle) (isCycle : g.IsCycle other)
    (through : u ∈ other) : cycle.length ≤ other.length := by
  let next v := (g.next v).filter (component.contains ·)
  obtain ⟨row, turned, isCycle⟩ := isCycle.exists_cons through
  -- A cycle stays in the component, so that none of its arcs is filtered away.
  have stays : ∀ w ∈ u :: row, w ∈ component := fun w member =>
    (mem_iff w).2 (isCycle.mutual_of_mem List.mem_cons_self member)
  obtain ⟨chain, -, back⟩ := List.isChain_append.1 isCycle.chain
  have chain : List.IsChain (fun a b => b ∈ next a) (u :: row) :=
    chain.imp_of_mem_imp fun a b _ member arc => by simp [next, arc, stays b member]
  have last := List.getLast?_eq_some_getLast (List.cons_ne_nil u row)
  obtain ⟨t, met, node, short⟩ := exists_trail_of_isRow ⟨chain, rfl, last⟩
  have back : (next t.node).contains u := by
    have arc := back _ last u rfl
    simp [next, node, arc, stays u List.mem_cons_self]
  obtain ⟨s, first, rfl⟩ := Option.map_eq_some_iff.1 found
  rw [turned.perm.length_eq]
  exact (length_path_le_of_find? first met back).trans short

theorem exists_shortest_cycle {component : List (Fin n)}
    (mem_iff : ∀ w, w ∈ component ↔ g.Mutual u w) (apart : v ≠ u) (both : g.Mutual u v) :
    ∃ cycle, g.cycleThrough? component u = some cycle ∧ cycle.head? = some u ∧ g.IsCycle cycle ∧
      (∀ w ∈ cycle, g.Mutual u w) ∧
      ∀ other, g.IsCycle other → u ∈ other → cycle.length ≤ other.length := by
  obtain ⟨cycle, found⟩ := exists_cycleThrough? mem_iff apart both
  obtain ⟨isCycle, member⟩ := isCycle_of_cycleThrough? found
  exact ⟨cycle, found, head?_of_cycleThrough? found, isCycle,
    fun w inside => isCycle.mutual_of_mem member inside,
    fun other => length_le_of_cycleThrough? mem_iff found⟩

theorem cycleThrough?_eq_none_iff {component : List (Fin n)} (loopless : g.Loopless)
    (mem_iff : ∀ w, w ∈ component ↔ g.Mutual u w) :
    g.cycleThrough? component u = none ↔ ∀ v, g.Mutual u v → v = u := by
  constructor
  · intro nothing v both
    by_contra apart
    obtain ⟨cycle, found⟩ := exists_cycleThrough? mem_iff apart both
    cases nothing.symm.trans found
  · intro alone
    rw [Option.eq_none_iff_forall_ne_some]
    intro cycle found
    -- Without loops a cycle has a further node, which would be in the component as well.
    obtain ⟨isCycle, member⟩ := isCycle_of_cycleThrough? found
    obtain ⟨v, inside, apart⟩ := exists_mem_ne isCycle.nodup (isCycle.two_le_length loopless) u
    exact apart (alone v (isCycle.mutual_of_mem member inside))

end FileGraph.Digraph
