import FileGraph.Digraph.Breadth
import FileGraph.Proofs.Digraph.Reach

/-! # What a search in the breadth meets

* `mem_newcomers` and `mem_seeAll`: how one row is looked at.
* `mem_breadthFirst_of_mem_queue` and `breadthFirst_closed`: the search meets what is in the queue,
  and the successors of whatever it meets, unless they were seen before.
* `breadthFirst_forall`: what holds of the trails in the queue and is kept by a step to an unseen
  node holds of all trails.
* `nodup_breadthFirst`: the search meets no node twice.
* `Trail.LeadsFrom`: a trail that is a path without repeated nodes.
-/

namespace FileGraph.Digraph

variable {n : Nat} {next : Fin n → List (Fin n)} {queue : List (Trail n)} {seen : List (Fin n)}

/-! ## One row -/

theorem mem_newcomers {row : List (Fin n)} {v : Fin n} :
    v ∈ newcomers seen row ↔ v ∈ row ∧ v ∉ seen := by
  fun_induction newcomers seen row with
  | case1 => simp
  | case2 seen w later known ih =>
    have known : w ∈ seen := by simpa using known
    grind
  | case3 seen w later fresh ih =>
    have fresh : w ∉ seen := by simpa using fresh
    grind

theorem nodup_newcomers (seen row : List (Fin n)) : (newcomers seen row).Nodup := by
  fun_induction newcomers seen row with
  | case1 => exact List.nodup_nil
  | case2 seen w later known ih => exact ih
  | case3 seen w later fresh ih =>
    refine List.nodup_cons.2 ⟨?_, ih⟩
    intro again
    exact (mem_newcomers.1 again).2 List.mem_cons_self

theorem mem_seeAll {row : List (Fin n)} {v : Fin n} :
    v ∈ seeAll seen row ↔ v ∈ seen ∨ v ∈ row := by
  fun_induction seeAll seen row with
  | case1 => simp
  | case2 seen w later known ih =>
    have known : w ∈ seen := by simpa using known
    grind
  | case3 seen w later fresh ih => grind

/-! ## The whole search -/

theorem Trail.path_extend (t : Trail n) (v : Fin n) : (t.extend v).path = t.path ++ [v] := by
  simp [Trail.path, Trail.extend]

theorem mem_breadthFirst_of_mem_queue {t : Trail n} (member : t ∈ queue) :
    t ∈ breadthFirst next queue seen := by
  fun_induction breadthFirst next queue seen with
  | case1 => exact absurd member List.not_mem_nil
  | case2 s queue seen ih =>
    cases List.mem_cons.1 member with
    | inl same => exact same ▸ List.mem_cons_self
    | inr member => exact List.mem_cons_of_mem _ (ih (List.mem_append_left _ member))

/-- Whatever succeeds a node that the search meets was seen before, or is met as well. -/
theorem breadthFirst_closed {t : Trail n} {v : Fin n} (met : t ∈ breadthFirst next queue seen)
    (arc : v ∈ next t.node) :
    v ∈ seen ∨ v ∈ (breadthFirst next queue seen).map (·.node) := by
  fun_induction breadthFirst next queue seen with
  | case1 => exact absurd met List.not_mem_nil
  | case2 s queue seen ih =>
    -- A newcomer is put into the queue, and so it is met.
    have queued : ∀ w ∈ newcomers seen (next s.node),
        w ∈ (breadthFirst next (queue ++ (newcomers seen (next s.node)).map s.extend)
          (seeAll seen (next s.node))).map (·.node) := by
      intro w new
      have waits : s.extend w ∈ queue ++ (newcomers seen (next s.node)).map s.extend :=
        List.mem_append_right _ (List.mem_map_of_mem new)
      exact List.mem_map.2 ⟨s.extend w, mem_breadthFirst_of_mem_queue waits, rfl⟩
    by_cases known : v ∈ seen
    · exact Or.inl known
    · refine Or.inr (List.mem_cons_of_mem _ ?_)
      cases List.mem_cons.1 met with
      | inl same => exact queued v (mem_newcomers.2 ⟨same ▸ arc, known⟩)
      | inr met =>
        cases ih met with
        | inl looked =>
          have inRow := (mem_seeAll.1 looked).resolve_left known
          exact queued v (mem_newcomers.2 ⟨inRow, known⟩)
        | inr met => exact met

/-- What holds of the trails in the queue, and of a trail made longer by an unseen successor, holds
of all trails of the search. -/
theorem breadthFirst_forall {p : Trail n → Prop} (start : ∀ t ∈ queue, p t)
    (known : ∀ t ∈ queue, ∀ v ∈ t.path, v ∈ seen)
    (step : ∀ t v, p t → v ∈ next t.node → v ∉ t.path → v ∉ seen → p (t.extend v)) :
    ∀ t ∈ breadthFirst next queue seen, p t := by
  fun_induction breadthFirst next queue seen with
  | case1 => exact fun t met => absurd met List.not_mem_nil
  | case2 s queue seen ih =>
    have here : p s := start s List.mem_cons_self
    have passed : ∀ v ∈ s.path, v ∈ seen := known s List.mem_cons_self
    -- The queue of the rest of the search holds the trails that waited, and `s` made longer by a
    -- newcomer.
    have start' : ∀ t ∈ queue ++ (newcomers seen (next s.node)).map s.extend, p t := by
      intro t waits
      cases List.mem_append.1 waits with
      | inl waits => exact start t (List.mem_cons_of_mem _ waits)
      | inr new =>
        obtain ⟨v, inRow, rfl⟩ := List.mem_map.1 new
        obtain ⟨arc, fresh⟩ := mem_newcomers.1 inRow
        exact step s v here arc (fun again => fresh (passed v again)) fresh
    have known' : ∀ t ∈ queue ++ (newcomers seen (next s.node)).map s.extend,
        ∀ v ∈ t.path, v ∈ seeAll seen (next s.node) := by
      intro t waits v onPath
      cases List.mem_append.1 waits with
      | inl waits =>
        exact mem_seeAll.2 (Or.inl (known t (List.mem_cons_of_mem _ waits) v onPath))
      | inr new =>
        obtain ⟨w, inRow, rfl⟩ := List.mem_map.1 new
        rw [Trail.path_extend, List.mem_append, List.mem_singleton] at onPath
        cases onPath with
        | inl onPath => exact mem_seeAll.2 (Or.inl (passed v onPath))
        | inr same => exact mem_seeAll.2 (Or.inr (same ▸ (mem_newcomers.1 inRow).1))
    intro t met
    cases List.mem_cons.1 met with
    | inl same => exact same ▸ here
    | inr met =>
      apply ih start' known' _ t met
      intro t v holds arc off fresh
      exact step t v holds arc off fun known => fresh (mem_seeAll.2 (Or.inl known))

/-- A search whose queue holds different seen nodes meets no node twice, and none that was seen
before apart from these. -/
theorem nodup_breadthFirst (distinct : (queue.map (·.node)).Nodup)
    (known : ∀ t ∈ queue, t.node ∈ seen) :
    ((breadthFirst next queue seen).map (·.node)).Nodup ∧
      ∀ v ∈ (breadthFirst next queue seen).map (·.node), v ∈ queue.map (·.node) ∨ v ∉ seen := by
  fun_induction breadthFirst next queue seen with
  | case1 => simp
  | case2 s queue seen ih =>
    obtain ⟨alone, distinct⟩ := List.nodup_cons.1 distinct
    have names : (queue ++ (newcomers seen (next s.node)).map s.extend).map (·.node) =
        queue.map (·.node) ++ newcomers seen (next s.node) := by
      simp [Function.comp_def, Trail.extend]
    have apart : ∀ v ∈ queue.map (·.node), v ∉ newcomers seen (next s.node) := by
      intro v waits new
      obtain ⟨t, inQueue, rfl⟩ := List.mem_map.1 waits
      exact (mem_newcomers.1 new).2 (known t (List.mem_cons_of_mem _ inQueue))
    rw [names] at ih
    -- All that waits is seen and newcomers are not, so no node waits twice.
    obtain ⟨distinct', met⟩ := ih
      (List.nodup_append.2 ⟨distinct, nodup_newcomers _ _, fun v hv w hw e => apart v hv (e ▸ hw)⟩)
      (by
        intro t waits
        cases List.mem_append.1 waits with
        | inl waits => exact mem_seeAll.2 (Or.inl (known t (List.mem_cons_of_mem _ waits)))
        | inr new =>
          obtain ⟨v, inRow, rfl⟩ := List.mem_map.1 new
          exact mem_seeAll.2 (Or.inr (mem_newcomers.1 inRow).1))
    have later : ∀ v ∈ (breadthFirst next (queue ++ (newcomers seen (next s.node)).map s.extend)
        (seeAll seen (next s.node))).map (·.node), v ∈ queue.map (·.node) ∨ v ∉ seen := by
      intro v again
      cases met v again with
      | inl waits => exact (List.mem_append.1 waits).imp_right fun new => (mem_newcomers.1 new).2
      | inr fresh => exact Or.inr fun known => fresh (mem_seeAll.2 (Or.inl known))
    refine ⟨List.nodup_cons.2 ⟨?_, distinct'⟩, ?_⟩
    · intro again
      cases later _ again with
      | inl waits => exact alone waits
      | inr fresh => exact fresh (known s List.mem_cons_self)
    · intro v member
      cases List.mem_cons.1 member with
      | inl same => exact Or.inl (same ▸ List.mem_cons_self)
      | inr member => exact (later v member).imp_left (List.mem_cons_of_mem _)

/-! ## Trails -/

/-- A trail that starts at `u`, goes from node to successor, and comes to no node twice. -/
structure Trail.LeadsFrom (next : Fin n → List (Fin n)) (u : Fin n) (t : Trail n) : Prop where
  nodup : t.path.Nodup
  chain : List.IsChain (fun a b => b ∈ next a) t.path
  head : t.path.head? = some u

theorem Trail.leadsFrom_start (u : Fin n) : (Trail.start u).LeadsFrom next u where
  nodup := by simp [Trail.path, Trail.start]
  chain := List.isChain_singleton u
  head := rfl

theorem Trail.getLast?_path (t : Trail n) : t.path.getLast? = some t.node := by
  simp [Trail.path]

theorem Trail.LeadsFrom.extend {u v : Fin n} {t : Trail n} (leads : t.LeadsFrom next u)
    (arc : v ∈ next t.node) (off : v ∉ t.path) : (t.extend v).LeadsFrom next u where
  nodup := by
    rw [Trail.path_extend]
    exact List.nodup_append.2 ⟨leads.nodup, by simp, fun a ha b hb e => off (by simp_all)⟩
  chain := by
    rw [Trail.path_extend]
    refine List.isChain_append.2 ⟨leads.chain, List.isChain_singleton v, ?_⟩
    intro a last b first
    rw [Trail.getLast?_path] at last
    obtain rfl : t.node = a := by simpa using last
    obtain rfl : v = b := by simpa using first
    exact arc
  head := by
    rw [Trail.path_extend, List.head?_append, leads.head]
    rfl

theorem Trail.LeadsFrom.reaches {g : Digraph n} {u : Fin n} {t : Trail n}
    (leads : t.LeadsFrom g.next u) : g.Reaches u t.node := by
  obtain ⟨row, path⟩ := List.head?_eq_some_iff.1 leads.head
  refine reaches_of_isChain (path ▸ leads.chain) ?_
  exact path ▸ List.mem_of_getLast? t.getLast?_path

theorem leadsFrom_of_mem_breadthFirst {u : Fin n} (known : u ∈ seen) :
    ∀ t ∈ breadthFirst next [.start u] seen, t.LeadsFrom next u := by
  apply breadthFirst_forall
  · intro t member
    obtain rfl := List.mem_singleton.1 member
    exact Trail.leadsFrom_start u
  · intro t member v onPath
    obtain rfl := List.mem_singleton.1 member
    obtain rfl : v = u := by simpa [Trail.path, Trail.start] using onPath
    exact known
  · intro t v leads arc off _
    exact leads.extend arc off

end FileGraph.Digraph
