import FileGraph.Proofs.Graph.Cycle

/-! # Which files and edges are circular

* `Genuine`: a list of ids that is a cycle of edges between given files.
* `genuine_of_mem_detect`, `pairwise_detect`: detected cycles are genuine, and no two have the same
  members.
* `mem_flatten_detect_iff`: a file is on a detected cycle exactly if it reaches another file that
  reaches it, ids being free of line feeds.
* `Follows`: two neighbours on a cycle, the pairs by which edges are marked.
-/

namespace FileGraph.Cycle

variable {ids : List String} {references : List (String × String)}

/-! ## Detected cycles -/

theorem exists_recorded (index : Index n) (g : Digraph n) :
    ∃ kept, detectIn index g = kept.map (·.cycle) ∧ Recorded index g kept := by
  refine ⟨_, rfl, Recorded.foldl_repair ?_ g.components (List.finRange n)⟩
  exact Recorded.nil.foldl_record fun _ => Digraph.isCycle_of_mem_closed

theorem nodup_map_name {index : Index n} {cycle : List (Fin n)}
    (isCycle : (index.looplessDigraph references).IsCycle cycle) :
    (cycle.map index.name).Nodup := by
  refine (List.nodup_map_iff_inj_on isCycle.nodup).2 ?_
  intro u hu v hv same
  exact Index.eq_of_name_eq (isCycle.exists_next hu) (isCycle.exists_next hv) same

theorem exists_isCycle_of_mem_detect {cycle : List String} (member : cycle ∈ detect ids references) :
    ∃ numbers, ((Index.ofList ids).looplessDigraph references).IsCycle numbers ∧
      cycle = numbers.map (Index.ofList ids).name := by
  obtain ⟨kept, found, recorded⟩ :=
    exists_recorded (Index.ofList ids) ((Index.ofList ids).looplessDigraph references)
  obtain ⟨numbers, inside, rfl⟩ := List.mem_map.1 member
  rw [found] at inside
  obtain ⟨k, held, rfl⟩ := List.mem_map.1 inside
  exact ⟨k.cycle, recorded.isCycle k held, rfl⟩

/-- A list of different files, at least two, each joined to the next by an edge, and the last one to
the first. -/
structure Genuine (ids : List String) (references : List (String × String))
    (cycle : List String) : Prop where
  two_le : 2 ≤ cycle.length
  nodup : cycle.Nodup
  known : ∀ x ∈ cycle, x ∈ ids
  joined : ∀ i < cycle.length, ∃ x y, (x, y) ∈ references ∧
    cycle[i]? = some x ∧ cycle[(i + 1) % cycle.length]? = some y

theorem genuine_of_mem_detect {cycle : List String} (member : cycle ∈ detect ids references) :
    Genuine ids references cycle := by
  obtain ⟨numbers, isCycle, rfl⟩ := exists_isCycle_of_mem_detect member
  refine ⟨?_, nodup_map_name isCycle, ?_, ?_⟩
  · rw [List.length_map]
    exact isCycle.two_le_length Index.loopless_looplessDigraph
  · intro x inside
    obtain ⟨u, _, rfl⟩ := List.mem_map.1 inside
    exact Index.name_mem ids u
  · intro i bound
    rw [List.length_map] at bound ⊢
    have bound' : (i + 1) % numbers.length < numbers.length := Nat.mod_lt _ (by omega)
    have arc := isCycle.mem_next_of_getElem? (List.getElem?_eq_getElem bound)
      (List.getElem?_eq_getElem bound')
    obtain ⟨_, x, y, reference, hx, hy⟩ := Index.mem_next_looplessDigraph.1 arc
    refine ⟨x, y, reference, ?_, ?_⟩
    · rw [List.getElem?_map, List.getElem?_eq_getElem bound, ← Index.name_of_number? hx]
      rfl
    · rw [List.getElem?_map, List.getElem?_eq_getElem bound', ← Index.name_of_number? hy]
      rfl

theorem pairwise_detect (ids : List String) (references : List (String × String)) :
    (detect ids references).Pairwise fun cycle cycle' => ¬ ∀ x, x ∈ cycle ↔ x ∈ cycle' := by
  obtain ⟨kept, found, recorded⟩ :=
    exists_recorded (Index.ofList ids) ((Index.ofList ids).looplessDigraph references)
  unfold detect
  dsimp only
  rw [found, List.map_map, List.pairwise_map]
  -- Cycles with the same members would have been kept under one key.
  refine (List.pairwise_map.1 recorded.distinct).imp_of_mem ?_
  intro k k' member member' apart same
  apply apart
  rw [recorded.keyed k member, recorded.keyed k' member']
  exact key_eq_of_mem_iff (nodup_map_name (recorded.isCycle k member))
    (nodup_map_name (recorded.isCycle k' member')) same

/-! ## Files on detected cycles -/

theorem mem_flatten_detect_of_mutual (plain : ∀ x ∈ ids, '\n' ∉ x.toList) {x y : String}
    (different : y ≠ x) (forth : Relation.ReflTransGen (KnownStep ids references) x y)
    (back : Relation.ReflTransGen (KnownStep ids references) y x) :
    x ∈ (detect ids references).flatten := by
  have known : x ∈ ids := by
    cases forth.cases_head with
    | inl same => exact absurd same.symm different
    | inr step => exact step.choose_spec.1.1
  obtain ⟨u, hu⟩ := Index.exists_number?_of_mem known
  obtain ⟨v, hv, forth⟩ := Index.reaches_of_known forth hu
  obtain ⟨w, hw, back⟩ := Index.reaches_of_known back hv
  obtain rfl : u = w := Option.some.inj (hu.symm.trans hw)
  have apart : v ≠ u := by
    intro same
    subst same
    exact different ((Index.name_of_number? hv).symm.trans (Index.name_of_number? hu))
  obtain ⟨before, behind, nodes⟩ := List.append_of_mem (List.mem_finRange u)
  -- The cycle through `u` is kept at the latest when the turn of `u` comes, and stays.
  have closed : Recorded (Index.ofList ids) ((Index.ofList ids).looplessDigraph references) _ :=
    Recorded.nil.foldl_record fun _ => Digraph.isCycle_of_mem_closed
  have recorded := closed.foldl_repair
    ((Index.ofList ids).looplessDigraph references).components before
  obtain ⟨k, member, inside⟩ := covered_repair recorded (fun u => plain _ (Index.name_mem ids u))
    Index.eq_of_name_eq apart ⟨forth, back⟩
  refine List.mem_flatten.2 ⟨k.cycle.map (Index.ofList ids).name, ?_, ?_⟩
  · refine List.mem_map_of_mem (List.mem_map_of_mem (f := fun k : Kept _ => k.cycle) ?_)
    rw [nodes, List.foldl_append, List.foldl_cons]
    exact subset_foldl_repair _ behind member
  · exact List.mem_map.2 ⟨u, inside, Index.name_of_number? hu⟩

theorem mem_flatten_detect_iff (plain : ∀ x ∈ ids, '\n' ∉ x.toList) (x : String) :
    x ∈ (detect ids references).flatten ↔ ∃ y ∈ ids, y ≠ x ∧
      Relation.ReflTransGen (KnownStep ids references) x y ∧
      Relation.ReflTransGen (KnownStep ids references) y x := by
  constructor
  · intro member
    obtain ⟨cycle, member, inside⟩ := List.mem_flatten.1 member
    have genuine := genuine_of_mem_detect member
    obtain ⟨numbers, isCycle, rfl⟩ := exists_isCycle_of_mem_detect member
    obtain ⟨u, hu, rfl⟩ := List.mem_map.1 inside
    obtain ⟨y, hy, different⟩ :=
      Digraph.exists_mem_ne genuine.nodup genuine.two_le ((Index.ofList ids).name u)
    obtain ⟨v, hv, rfl⟩ := List.mem_map.1 hy
    have both := isCycle.mutual_of_mem hu hv
    exact ⟨_, Index.name_mem ids v, different, Index.known_of_reaches both.1,
      Index.known_of_reaches both.2⟩
  · intro ⟨y, _, different, forth, back⟩
    exact mem_flatten_detect_of_mutual plain different forth back

/-! ## Marking -/

/-- `y` comes behind `x` on a cycle; the first member comes behind the last. -/
def Follows (cycle : List String) (x y : String) : Prop :=
  ∃ i, cycle[i]? = some x ∧ cycle[(i + 1) % cycle.length]? = some y

theorem getElem?_turned (cycle : List String) {i : Nat} (bound : i < cycle.length) :
    (cycle.drop 1 ++ cycle.take 1)[i]? = cycle[(i + 1) % cycle.length]? := by
  by_cases inside : i + 1 < cycle.length
  · rw [Nat.mod_eq_of_lt inside, List.getElem?_append_left (by simp; omega), List.getElem?_drop,
      Nat.add_comm]
  · have last : i + 1 = cycle.length := by omega
    rw [last, Nat.mod_self, List.getElem?_append_right (by simp; omega), List.length_drop,
      List.getElem?_take]
    simp only [show i - (cycle.length - 1) = 0 by omega, Nat.lt_one_iff, ↓reduceIte]

theorem mem_links_iff {cycle : List String} {x y : String} :
    (x, y) ∈ links cycle ↔ Follows cycle x y := by
  unfold links
  rw [List.mem_iff_getElem?]
  constructor
  · intro ⟨i, pair⟩
    obtain ⟨hx, hy⟩ := List.getElem?_zip_eq_some.1 pair
    obtain ⟨bound, -⟩ := List.getElem?_eq_some_iff.1 hx
    exact ⟨i, hx, by rwa [← getElem?_turned cycle bound]⟩
  · intro ⟨i, hx, hy⟩
    obtain ⟨bound, -⟩ := List.getElem?_eq_some_iff.1 hx
    exact ⟨i, List.getElem?_zip_eq_some.2 ⟨hx, by rwa [getElem?_turned cycle bound]⟩⟩

theorem exists_follows {cycle : List String} {x : String} (member : x ∈ cycle) :
    (∃ y, Follows cycle x y) ∧ ∃ y, Follows cycle y x := by
  obtain ⟨i, here⟩ := List.mem_iff_getElem?.1 member
  obtain ⟨bound, -⟩ := List.getElem?_eq_some_iff.1 here
  have behind : (i + 1) % cycle.length < cycle.length := Nat.mod_lt _ (by omega)
  have before : (i + (cycle.length - 1)) % cycle.length < cycle.length := Nat.mod_lt _ (by omega)
  refine ⟨⟨_, i, here, List.getElem?_eq_getElem behind⟩,
    ⟨_, _, List.getElem?_eq_getElem before, ?_⟩⟩
  -- One place back is the same as all places but one ahead.
  have turn : ((i + (cycle.length - 1)) % cycle.length + 1) % cycle.length = i := by
    rw [Nat.mod_add_mod, Nat.add_assoc, Nat.sub_add_cancel (by omega), Nat.add_mod_right,
      Nat.mod_eq_of_lt bound]
  rw [turn, here]

theorem Genuine.mem_of_follows {cycle : List String} (genuine : Genuine ids references cycle)
    {x y : String} (follows : Follows cycle x y) : (x, y) ∈ references := by
  obtain ⟨i, hx, hy⟩ := follows
  obtain ⟨bound, -⟩ := List.getElem?_eq_some_iff.1 hx
  obtain ⟨x', y', reference, hx', hy'⟩ := genuine.joined i bound
  obtain rfl : x = x' := Option.some.inj (hx.symm.trans hx')
  obtain rfl : y = y' := Option.some.inj (hy.symm.trans hy')
  exact reference

instance (cycle : List String) (x y : String) : Decidable (Follows cycle x y) :=
  decidable_of_iff ((x, y) ∈ links cycle) mem_links_iff

theorem markNodes_eq_map (cycles : List (List String)) (nodes : List Node) :
    markNodes cycles nodes = nodes.map fun node =>
      { node with isCircular := decide (∃ cycle ∈ cycles, node.id ∈ cycle) } := by
  simp [markNodes, List.mem_flatten]

theorem markEdges_eq_map (cycles : List (List String)) (edges : List Edge) :
    markEdges cycles edges = edges.map fun e =>
      { e with isCircular := decide (∃ cycle ∈ cycles, Follows cycle e.source e.target) } := by
  simp [markEdges, List.mem_flatMap, mem_links_iff]

/-! ## Detecting and marking -/

/-- Marking by the detected cycles marks a file exactly if it reaches some other given file that
reaches it; all else of the files stays. -/
theorem markNodes_detect_complete (ids : List String) (plain : ∀ x ∈ ids, '\n' ∉ x.toList)
    (nodes : List Node) (edges : List Edge) :
    let references := edges.map fun e => (e.source, e.target)
    ∃ circular : String → Bool,
      (∀ x, circular x = true ↔ ∃ y ∈ ids, y ≠ x ∧
        Relation.ReflTransGen (KnownStep ids references) x y ∧
        Relation.ReflTransGen (KnownStep ids references) y x) ∧
      markNodes (detect ids references) nodes =
        nodes.map fun node => { node with isCircular := circular node.id } := by
  intro references
  refine ⟨(detect ids references).flatten.contains, ?_, rfl⟩
  intro x
  rw [List.contains_iff_mem, mem_flatten_detect_iff plain]

/-- `c` comes back to `a` only through `b`, which a search from `a` leaves before it comes to `c`. -/
theorem markNodes_detect_complete_left_before :
    let edges := [("a", "b"), ("a", "c"), ("c", "b"), ("b", "a")].map fun (x, y) =>
      Edge.ofReference x y .import
    let node := Node.ofSource ⟨⟨"/c"⟩, "c", "", .typeScript⟩
    (∀ x ∈ ["a", "b", "c"], '\n' ∉ x.toList) ∧
      markNodes (detect ["a", "b", "c"] (edges.map fun e => (e.source, e.target))) [node] =
        [{ node with isCircular := true }] := by
  intro edges node
  have plain : ∀ x ∈ ["a", "b", "c"], '\n' ∉ x.toList := by decide
  refine ⟨plain, ?_⟩
  obtain ⟨circular, reached, marked⟩ :=
    markNodes_detect_complete ["a", "b", "c"] plain [node] edges
  have step : ∀ x ∈ ["a", "b", "c"], ∀ y ∈ ["a", "b", "c"],
      (x, y) ∈ edges.map (fun e => (e.source, e.target)) →
        Relation.ReflTransGen (KnownStep ["a", "b", "c"] (edges.map fun e => (e.source, e.target)))
          x y :=
    fun x hx y hy reference => .single ⟨hx, hy, reference⟩
  have forth := (step "c" (by decide) "b" (by decide) (by decide)).trans
    (step "b" (by decide) "a" (by decide) (by decide))
  have back := step "a" (by decide) "c" (by decide) (by decide)
  rw [marked, List.map_singleton, (reached node.id).2 ⟨"a", by decide, by decide, forth, back⟩]

/-- What detection and marking promise for any ids and edges. -/
theorem detect_sound (ids : List String) (nodes : List Node) (edges : List Edge) :
    let references := edges.map fun e => (e.source, e.target)
    let cycles := detect ids references
    (∀ cycle ∈ cycles, Genuine ids references cycle) ∧
      cycles.Pairwise (fun cycle cycle' => ¬ ∀ x, x ∈ cycle ↔ x ∈ cycle') ∧
      (markNodes cycles nodes = nodes.map fun node =>
        { node with isCircular := decide (∃ cycle ∈ cycles, node.id ∈ cycle) }) ∧
      (markEdges cycles edges = edges.map fun e =>
        { e with isCircular := decide (∃ cycle ∈ cycles, Follows cycle e.source e.target) }) ∧
      ∀ node ∈ markNodes cycles nodes, node.isCircular = true →
        (∃ e ∈ markEdges cycles edges, e.isCircular = true ∧ e.source = node.id) ∧
          ∃ e ∈ markEdges cycles edges, e.isCircular = true ∧ e.target = node.id := by
  intro references cycles
  refine ⟨fun _ => genuine_of_mem_detect, pairwise_detect ids references,
    markNodes_eq_map cycles nodes, markEdges_eq_map cycles edges, ?_⟩
  intro node member circular
  obtain ⟨original, _, rfl⟩ := List.mem_map.1 (markNodes_eq_map cycles nodes ▸ member)
  obtain ⟨cycle, found, inside⟩ := of_decide_eq_true circular
  -- Neighbours on a cycle are joined by an edge, and that edge is marked.
  have marked : ∀ x y, Follows cycle x y →
      ∃ e ∈ markEdges cycles edges, e.isCircular = true ∧ e.source = x ∧ e.target = y := by
    intro x y follows
    obtain ⟨e, given, ends⟩ := List.mem_map.1 ((genuine_of_mem_detect found).mem_of_follows follows)
    obtain ⟨rfl, rfl⟩ := Prod.mk.inj ends
    rw [markEdges_eq_map]
    exact ⟨_, List.mem_map_of_mem given, decide_eq_true ⟨cycle, found, follows⟩, rfl, rfl⟩
  obtain ⟨⟨y, behind⟩, ⟨z, before⟩⟩ := exists_follows inside
  obtain ⟨e, out, circular, leaves, _⟩ := marked _ y behind
  obtain ⟨f, into, circular', _, enters⟩ := marked z _ before
  exact ⟨⟨e, out, circular, leaves⟩, ⟨f, into, circular', enters⟩⟩

end FileGraph.Cycle
