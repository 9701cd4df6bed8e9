import FileGraph.Digraph.Component
import FileGraph.Proofs.Digraph.Breadth
import FileGraph.Proofs.Digraph.Traversal

/-! # Components are the classes of nodes that reach each other

* `Partial`: what holds of components found so far, when the nodes of a list are dealt with.
* `Partial.add`: dealing with the next node of a settled order keeps this.
* `mem_componentOf_iff`: the component of a node is made of the nodes that it reaches and that
  reach it.
* `isCycle_of_cycleThrough?` and `exists_cycleThrough?`: what is found as a cycle through a node is
  one, and there is one to be found if the node is not alone in its component.
-/

namespace FileGraph.Digraph

variable {n : Nat} {g : Digraph n} {found : List (List (Fin n))}

/-! ## Finding components -/

/-- What holds of the components found when the nodes of `done` are dealt with. -/
structure Partial (g : Digraph n) (found : List (List (Fin n))) (done : List (Fin n)) : Prop where
  nodup : found.flatten.Nodup
  mem_iff : ∀ component ∈ found, ∀ u ∈ component, ∀ v, v ∈ component ↔ g.Mutual u v
  taken : ∀ u ∈ done, u ∈ found.flatten

theorem Partial.nil : Partial g [] [] where
  nodup := List.nodup_nil
  mem_iff := by simp
  taken := by simp

theorem Partial.mem_flatten_of_mutual {done : List (Fin n)} (partly : Partial g found done)
    {u v : Fin n} (member : u ∈ found.flatten) (both : g.Mutual u v) : v ∈ found.flatten := by
  obtain ⟨component, inFound, member⟩ := List.mem_flatten.1 member
  exact List.mem_flatten.2 ⟨component, inFound, (partly.mem_iff component inFound u member v).2 both⟩

/-- Nodes from which `u` can be got to, and with each of them all untaken nodes in front of it, are the
component of `u` if `u` is the next node of a settled order. -/
theorem Partial.mem_iff_of_closed {done earlier : List (Fin n)} {u : Fin n}
    (partly : Partial g found done) (settled : g.Settled done (u :: earlier))
    (nodup : (u :: earlier).Nodup) (all : ∀ v, v ∈ done ∨ v ∈ u :: earlier)
    (fresh : u ∉ found.flatten) {met : Fin n → Prop} (start : met u)
    (leads : ∀ v, met v → g.Reaches v u) (untaken : ∀ v, met v → v = u ∨ v ∉ found.flatten)
    (closed : ∀ v w, met v → v ∈ g.next w → w ∈ found.flatten ∨ met w) (v : Fin n) :
    met v ↔ g.Mutual u v := by
  constructor
  · intro inside
    by_cases same : v = u
    · exact same ▸ .refl v
    have untaken := (untaken v inside).resolve_left same
    have before : v ∈ earlier :=
      List.mem_of_ne_of_mem same ((all v).resolve_left fun dealt => untaken (partly.taken v dealt))
    -- An untaken node that reaches `u` shares its component with `u`, or with a node dealt with.
    obtain ⟨w, near, both⟩ :=
      settled.2.exists_mutual before (leads v inside) (List.nodup_cons.1 nodup).1
    cases List.mem_cons.1 near with
    | inl same => exact same ▸ both
    | inr dealt => exact absurd (partly.mem_flatten_of_mutual (partly.taken w dealt) both) untaken
  · intro both
    -- Along a path from `v` to `u` all nodes are in the component, and no such node is taken.
    have follow : g.Reaches u v → met v := by
      apply Reaches.head_induction (p := fun v => g.Reaches u v → met v) _ _ both.2
      · exact fun _ => start
      · intro x w arc onward inside forth
        cases closed w x (inside (.step forth arc)) arc with
        | inl taken =>
          exact absurd (partly.mem_flatten_of_mutual taken ⟨.head arc onward, forth⟩) fresh
        | inr met => exact met
    exact follow both.1

theorem Partial.mem_met_iff {done earlier : List (Fin n)} {u : Fin n}
    (partly : Partial g found done) (settled : g.Settled done (u :: earlier))
    (nodup : (u :: earlier).Nodup) (all : ∀ v, v ∈ done ∨ v ∈ u :: earlier)
    (fresh : u ∉ found.flatten) (v : Fin n) :
    v ∈ (breadthFirst g.reverse.next [.start u] (u :: found.flatten)).map (·.node) ↔
      g.Mutual u v := by
  have start : u ∈ (breadthFirst g.reverse.next [.start u] (u :: found.flatten)).map (·.node) :=
    List.mem_map_of_mem (mem_breadthFirst_of_mem_queue List.mem_cons_self)
  refine partly.mem_iff_of_closed settled nodup all fresh start ?_ ?_ ?_ v
  · intro v met
    obtain ⟨t, found, rfl⟩ := List.mem_map.1 met
    exact reaches_reverse_iff.1 (leadsFrom_of_mem_breadthFirst List.mem_cons_self t found).reaches
  · intro v met
    refine ((nodup_breadthFirst (by simp) (by simp [Trail.start])).2 v met).imp ?_ ?_
    · intro first
      simpa [Trail.start] using first
    · exact fun fresh taken => fresh (List.mem_cons_of_mem u taken)
  · intro v w met arc
    obtain ⟨t, inSearch, rfl⟩ := List.mem_map.1 met
    cases breadthFirst_closed inSearch (mem_next_reverse.2 arc) with
    | inl known =>
      cases List.mem_cons.1 known with
      | inl same => exact Or.inr (same ▸ start)
      | inr taken => exact Or.inl taken
    | inr met => exact Or.inr met

theorem Partial.add {done earlier : List (Fin n)} {u : Fin n} (partly : Partial g found done)
    (settled : g.Settled done (u :: earlier)) (nodup : (u :: earlier).Nodup)
    (all : ∀ v, v ∈ done ∨ v ∈ u :: earlier) :
    Partial g (addComponent g.reverse found u) (u :: done) := by
  unfold addComponent
  dsimp only
  split
  · rename_i taken
    -- The component of `u` is there already.
    have taken : u ∈ found.flatten := by simpa using taken
    exact { partly with taken := List.forall_mem_cons.2 ⟨taken, partly.taken⟩ }
  · rename_i fresh
    have fresh : u ∉ found.flatten := by simpa using fresh
    have met := partly.mem_met_iff settled nodup all fresh
    refine ⟨?_, ?_, ?_⟩
    · rw [List.flatten_append, List.flatten_singleton]
      refine List.nodup_append.2 ⟨partly.nodup, ?_, ?_⟩
      · exact (nodup_breadthFirst (by simp) (by simp [Trail.start])).1
      · -- A node taken before would bring its whole component along, and `u` with it.
        intro v taken w new same
        have both : g.Mutual v u := (same ▸ (met w).1 new).symm
        exact fresh (partly.mem_flatten_of_mutual taken both)
    · intro component member v inside w
      cases List.mem_append.1 member with
      | inl member => exact partly.mem_iff component member v inside w
      | inr member =>
        obtain rfl := List.mem_singleton.1 member
        have both := (met v).1 inside
        rw [met w]
        exact ⟨both.symm.trans, both.trans⟩
    · intro v dealt
      rw [List.flatten_append, List.flatten_singleton, List.mem_append]
      cases List.mem_cons.1 dealt with
      | inl same => exact Or.inr ((met v).2 (same ▸ .refl v))
      | inr dealt => exact Or.inl (partly.taken v dealt)

theorem Partial.foldl_add {done left : List (Fin n)} (partly : Partial g found done)
    (settled : g.Settled done left) (nodup : left.Nodup) (all : ∀ v, v ∈ done ∨ v ∈ left) :
    Partial g (left.foldl (addComponent g.reverse) found) (left.reverse ++ done) := by
  induction left generalizing found done with
  | nil => exact partly
  | cons u earlier ih =>
    rw [List.foldl_cons, List.reverse_cons, List.append_assoc, List.singleton_append]
    refine ih (partly.add settled nodup all) settled.2 (List.nodup_cons.1 nodup).2 ?_
    intro v
    have := all v
    rw [List.mem_cons] at this ⊢
    tauto

theorem partial_components (g : Digraph n) :
    Partial g g.components (g.traverse.finished.reverse ++ []) :=
  Partial.nil.foldl_add (settled_traverse g) (nodup_finished_traverse g) fun v =>
    Or.inr (mem_finished_traverse g v)

/-! ## The component of a node -/

theorem exists_componentOf (g : Digraph n) (u : Fin n) :
    componentOf g.components u ∈ g.components ∧ u ∈ componentOf g.components u := by
  have partly := partial_components g
  obtain ⟨component, inFound, inside⟩ :=
    List.mem_flatten.1 (partly.taken u (by simp [mem_finished_traverse]))
  cases first : g.components.find? (·.contains u) with
  | none => exact absurd inside (by simpa using List.find?_eq_none.1 first component inFound)
  | some component =>
    have here : componentOf g.components u = component := by rw [componentOf, first]; rfl
    rw [here]
    exact ⟨List.mem_of_find?_eq_some first, by simpa using List.find?_some first⟩

theorem mem_componentOf_iff (g : Digraph n) (u v : Fin n) :
    v ∈ componentOf g.components u ↔ g.Mutual u v := by
  obtain ⟨inFound, inside⟩ := exists_componentOf g u
  exact (partial_components g).mem_iff _ inFound u inside v

theorem nodup_componentOf (g : Digraph n) (u : Fin n) :
    (componentOf g.components u).Nodup :=
  (List.nodup_flatten.1 (partial_components g).nodup).1 _ (exists_componentOf g u).1

theorem two_le_length_componentOf_iff (g : Digraph n) (u : Fin n) :
    2 ≤ (componentOf g.components u).length ↔ ∃ v, v ≠ u ∧ g.Mutual u v := by
  have inside := (exists_componentOf g u).2
  have nodup := nodup_componentOf g u
  constructor
  · intro two
    obtain ⟨v, member, different⟩ := exists_mem_ne nodup two u
    exact ⟨v, different, (mem_componentOf_iff g u v).1 member⟩
  · intro ⟨v, different, both⟩
    have member := (mem_componentOf_iff g u v).2 both
    match componentOf g.components u, inside, member with
    | [], inside, _ => exact absurd inside List.not_mem_nil
    | [x], inside, member =>
      obtain rfl := List.mem_singleton.1 inside
      exact absurd (List.mem_singleton.1 member) different
    | _ :: _ :: _, _, _ => simp

/-! ## A cycle through a node -/

theorem isCycle_of_cycleThrough? {component : List (Fin n)} {u : Fin n} {cycle : List (Fin n)}
    (found : g.cycleThrough? component u = some cycle) : g.IsCycle cycle ∧ u ∈ cycle := by
  obtain ⟨t, first, rfl⟩ := Option.map_eq_some_iff.1 found
  have leads := leadsFrom_of_mem_breadthFirst List.mem_cons_self t (List.mem_of_find?_eq_some first)
  have back : u ∈ g.next t.node := by
    have := List.find?_some first
    simp only [List.contains_iff_mem, List.mem_filter] at this
    exact this.1
  obtain ⟨row, path⟩ := List.head?_eq_some_iff.1 leads.head
  have chain : List.IsChain (fun a b => b ∈ g.next a) t.path :=
    leads.chain.imp fun _ _ arc => List.mem_of_mem_filter arc
  refine ⟨?_, path ▸ List.mem_cons_self⟩
  rw [path] at chain ⊢
  refine .of_row (path ▸ leads.nodup) chain ?_
  intro v last
  rw [← path, t.getLast?_path] at last
  obtain rfl : t.node = v := by simpa using last
  exact back

theorem exists_cycleThrough? {component : List (Fin n)} {u v : Fin n}
    (mem_iff : ∀ w, w ∈ component ↔ g.Mutual u w) (different : v ≠ u) (both : g.Mutual u v) :
    ∃ cycle, g.cycleThrough? component u = some cycle := by
  -- On a path from `u` whose end leads back to `u` all nodes are in the component, and so none of
  -- its arcs is filtered away.
  have met : ∀ w, g.Reaches u w → g.Reaches w u →
      w ∈ (trailsFrom (fun v => (g.next v).filter (component.contains ·)) u).map (·.node) := by
    intro w forth
    induction forth with
    | refl =>
      exact fun _ => List.mem_map_of_mem (mem_breadthFirst_of_mem_queue List.mem_cons_self)
    | @step x w forth arc ih =>
      intro onward
      obtain ⟨t, met, rfl⟩ := List.mem_map.1 (ih (.head arc onward))
      have inside : w ∈ component := (mem_iff w).2 ⟨forth.step arc, onward⟩
      have arc : w ∈ (g.next t.node).filter (component.contains ·) := by simp [arc, inside]
      cases breadthFirst_closed met arc with
      | inl same =>
        obtain rfl := List.mem_singleton.1 same
        exact List.mem_map_of_mem (mem_breadthFirst_of_mem_queue List.mem_cons_self)
      | inr met => exact met
  obtain ⟨w, near, arc⟩ := both.2.exists_last different
  obtain ⟨t, found, rfl⟩ := List.mem_map.1 (met w (both.1.trans near) (.single arc))
  have back : ((g.next t.node).filter (component.contains ·)).contains u := by
    simp [arc, (mem_iff u).2 (.refl u)]
  unfold cycleThrough?
  dsimp only
  rw [← Option.isSome_iff_exists, Option.isSome_map, List.find?_isSome]
  exact ⟨t, found, back⟩

end FileGraph.Digraph
