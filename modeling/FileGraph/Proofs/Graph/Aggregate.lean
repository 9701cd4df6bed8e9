import FileGraph.Proofs.Graph.Build
import FileGraph.Proofs.Graph.Circular
import Mathlib.Algebra.Ring.Nat

/-! # Links and the edges made of them

* `Tally`: what edges must be to stand for given links, one edge for each pair of files.
* `tally_aggregate`: aggregated edges are the tally of their links.
* `mem_ids_of_resolve?`: resolving answers ids only.
* `Graph.assemble_edges`: the edges of the graph of source files.
-/

namespace FileGraph

/-! ## One more link -/

theorem Edge.another_ofCount (source target : String) (kind : Kind) (count : Nat) :
    (ofCount source target kind count).another = ofCount source target kind (count + 1) :=
  rfl

/-- With different ends throughout, only the edge between the files of the link grows. -/
theorem mem_addLink {edges : List Edge} {link : Link} {e : Edge}
    (nodup : (edges.map (·.ends)).Nodup) (member : e ∈ addLink edges link) :
    (e ∈ edges ∧ e.ends ≠ link.ends) ∨
      (∃ old ∈ edges, old.ends = link.ends ∧ e = old.another) ∨
      link.ends ∉ edges.map (·.ends) ∧ e = .ofReference link.source link.target link.kind := by
  induction edges with
  | nil => exact .inr (.inr ⟨List.not_mem_nil, List.mem_singleton.1 member⟩)
  | cons edge later ih =>
      rw [List.map_cons, List.nodup_cons] at nodup
      unfold addLink at member
      by_cases same : edge.ends = link.ends
      · rw [if_pos (Edge.ends_eq_iff.1 same)] at member
        cases List.mem_cons.1 member with
        | inl here => exact .inr (.inl ⟨edge, List.mem_cons_self, same, here⟩)
        | inr there =>
            -- The edge that grew is the only one between these files.
            have apart : e.ends ≠ link.ends := fun equal =>
              nodup.1 (same.trans equal.symm ▸ List.mem_map_of_mem there)
            exact .inl ⟨List.mem_cons_of_mem _ there, apart⟩
      · rw [if_neg (mt Edge.ends_eq_iff.2 same)] at member
        cases List.mem_cons.1 member with
        | inl here => exact .inl ⟨here ▸ List.mem_cons_self, here ▸ same⟩
        | inr there =>
            obtain ⟨kept, apart⟩ | ⟨old, held, grown⟩ | ⟨fresh, made⟩ := ih nodup.2 there
            · exact .inl ⟨List.mem_cons_of_mem _ kept, apart⟩
            · exact .inr (.inl ⟨old, List.mem_cons_of_mem _ held, grown⟩)
            · refine .inr (.inr ⟨?_, made⟩)
              rw [List.map_cons, List.mem_cons]
              intro found
              cases found with
              | inl first => exact same first.symm
              | inr behind => exact fresh behind

theorem sum_count_addLink (edges : List Edge) (link : Link) :
    ((addLink edges link).map (·.count)).sum = (edges.map (·.count)).sum + 1 := by
  induction edges with
  | nil => rfl
  | cons edge later ih =>
      unfold addLink
      split
      · rw [List.map_cons, List.sum_cons, List.map_cons, List.sum_cons]
        change edge.count + 1 + _ = _
        omega
      · rw [List.map_cons, List.sum_cons, ih, List.map_cons, List.sum_cons]
        omega

/-! ## All links -/

theorem eraseDups_append_singleton {α : Type} [BEq α] [LawfulBEq α] (xs : List α) (x : α) :
    (xs ++ [x]).eraseDups = if x ∈ xs then xs.eraseDups else xs.eraseDups ++ [x] := by
  rw [List.eraseDups_append, List.removeAll, List.filter_singleton]
  split
  · simp_all
  · simp_all [List.eraseDups_cons]

/-- The first link between the files of an edge gives its kind, and all of them its count. -/
structure Tally (links : List Link) (edges : List Edge) : Prop where
  ends : edges.map (·.ends) = (links.map (·.ends)).eraseDups
  nodup : (edges.map (·.ends)).Nodup
  counted : ∀ e ∈ edges, ∃ first, links.find? (·.ends = e.ends) = some first ∧
    e = .ofCount e.source e.target first.kind ((links.map (·.ends)).count e.ends)
  total : (edges.map (·.count)).sum = links.length

namespace Tally

variable {links : List Link} {edges : List Edge}

theorem mem_ends_iff (tally : Tally links edges) (pair : String × String) :
    pair ∈ edges.map (·.ends) ↔ pair ∈ links.map (·.ends) := by
  rw [tally.ends, List.mem_eraseDups]

theorem nil : Tally [] [] where
  ends := rfl
  nodup := .nil
  counted := fun _ member => absurd member List.not_mem_nil
  total := rfl

theorem counted_addLink (tally : Tally links edges) (link : Link) {e : Edge}
    (member : e ∈ addLink edges link) :
    ∃ first, (links ++ [link]).find? (·.ends = e.ends) = some first ∧
      e = .ofCount e.source e.target first.kind
        (((links ++ [link]).map (·.ends)).count e.ends) := by
  rw [List.map_append, List.count_append, List.map_singleton, List.find?_append]
  obtain ⟨kept, apart⟩ | ⟨old, held, same, rfl⟩ | ⟨fresh, rfl⟩ := mem_addLink tally.nodup member
  · -- The link joins other files: both the first link and the count are as before.
    obtain ⟨first, found, made⟩ := tally.counted e kept
    refine ⟨first, by rw [found, Option.some_or], ?_⟩
    rwa [List.count_singleton, if_neg (by simpa using apart.symm), Nat.add_zero]
  · -- The link is a further one between the files of `old`.
    obtain ⟨first, found, made⟩ := tally.counted old held
    refine ⟨first, by rw [Edge.ends_another, found, Option.some_or], ?_⟩
    rw [Edge.ends_another, List.count_singleton, if_pos (by simpa using same.symm)]
    exact (congrArg Edge.another made).trans (Edge.another_ofCount ..)
  · -- None of the earlier links joins these files.
    rw [tally.mem_ends_iff] at fresh
    rw [Edge.ends_ofReference]
    have unseen : links.find? (·.ends = link.ends) = none := by
      rw [List.find?_eq_none]
      intro earlier given same
      exact fresh (of_decide_eq_true same ▸ List.mem_map_of_mem given)
    refine ⟨link, by rw [unseen, Option.none_or, List.find?_singleton]; simp, ?_⟩
    rw [List.count_eq_zero_of_not_mem fresh, List.count_singleton_self]
    rfl

theorem addLink (tally : Tally links edges) (link : Link) :
    Tally (links ++ [link]) (addLink edges link) where
  ends := by
    rw [map_ends_addLink, List.map_append, List.map_singleton, eraseDups_append_singleton,
      ← tally.ends]
    simp only [tally.mem_ends_iff]
  nodup := by
    rw [map_ends_addLink]
    split
    · exact tally.nodup
    · exact List.nodup_append.2 ⟨tally.nodup, List.nodup_singleton _, by simp_all⟩
  counted := fun _ => tally.counted_addLink link
  total := by
    rw [sum_count_addLink, tally.total, List.length_append, List.length_singleton]

end Tally

theorem tally_aggregate (links : List Link) : Tally links (aggregate links) := by
  -- The fold takes up links from the left, so each step adds one at the end of those dealt with.
  induction links using List.reverseRecOn with
  | nil => exact .nil
  | append_singleton links link ih =>
      unfold aggregate
      rw [List.foldl_append]
      exact ih.addLink link

theorem markEdges_ends (cycles : List (List String)) (edges : List Edge) :
    (Cycle.markEdges cycles edges).map (·.ends) = edges.map (·.ends) := by
  rw [Cycle.markEdges_eq_map, List.map_map]
  rfl

/-! ## The ends of links -/

theorem Resolver.mem_ids_of_resolve? {r : Resolver} {tree : FileTree} {file : SourceFile}
    {target id : String} (resolved : r.resolve? tree file target = some id) : id ∈ r.ids := by
  obtain ⟨path, _, found⟩ := Option.bind_eq_some_iff.1 resolved
  unfold idFor? at found
  dsimp only at found
  split at found
  next exact _ placed =>
    obtain rfl := Option.some.inj found
    simpa using (Option.filter_eq_some_iff.1 placed).2
  next =>
    obtain ⟨_, _, named⟩ := Option.bind_eq_some_iff.1 found
    exact List.mem_of_find?_eq_some named

theorem mem_linksOf {resolver : Resolver} {tree : FileTree} {files : List SourceFile} {link : Link}
    (member : link ∈ linksOf resolver tree files) :
    link.source ∈ files.map (·.relativePath) ∧ link.target ∈ resolver.ids ∧
      link.source ≠ link.target := by
  obtain ⟨file, given, member⟩ := List.mem_flatMap.1 member
  rw [linksOfFile_eq_filterMap] at member
  obtain ⟨reference, _, made⟩ := List.mem_filterMap.1 member
  obtain ⟨target, resolved, made⟩ := Option.bind_eq_some_iff.1 made
  split at made
  next => cases made
  next apart =>
    obtain rfl := Option.some.inj made
    exact ⟨List.mem_map_of_mem given, Resolver.mem_ids_of_resolve? resolved, Ne.symm apart⟩

/-- Links are the resolved references but those of a file to itself. -/
theorem linksOf_eq_filter (resolver : Resolver) (tree : FileTree) (files : List SourceFile) :
    linksOf resolver tree files =
      (files.flatMap fun file =>
        (Extract.references file.language file.content).filterMap fun reference =>
          (resolver.resolve? tree file reference.target).map fun target =>
            (⟨file.relativePath, target, reference.kind⟩ : Link)).filter
        fun link => link.source ≠ link.target := by
  rw [linksOf, List.filter_flatMap]
  congr 1
  funext file
  rw [linksOfFile_eq_filterMap, List.filter_filterMap]
  congr 1
  funext reference
  cases resolver.resolve? tree file reference.target with
  | none => rfl
  | some target =>
      by_cases same : target = file.relativePath
      · simp [same, Option.filter_some]
      · simp [same, Option.filter_some, Ne.symm same]

theorem render_eq_toString (n : Nat) : Text.Decimal.render n = toString n := by
  have digit : ∀ d < 10, Text.Decimal.digitChar d = d.digitChar := by decide
  rw [Nat.toString_eq_ofList_toDigits, Text.Decimal.render]
  congr 1
  fun_induction Text.Decimal.digits n with
  | case1 n small => rw [Nat.toDigits_of_lt_base small, digit n small]
  | case2 n large ih =>
      rw [Nat.toDigits_of_base_le (by decide) (by omega), ih, digit _ (Nat.mod_lt n (by decide))]

/-! ## Graphs of source files -/

namespace Graph

section Assemble

variable (tree : FileTree) (root : Path) (aliases : AliasTable) (files : List SourceFile)

theorem map_id_assemble :
    (assemble tree root aliases files).nodes.map (·.id) = files.map (·.relativePath) := by
  rw [assemble_eq, ofParts]
  dsimp only
  rw [Cycle.markNodes_eq_map, List.map_map]
  change (countReferences _ _).map (·.id) = _
  rw [map_id_countReferences, List.map_map]
  rfl

theorem exists_edges_assemble :
    ∃ cycles, (assemble tree root aliases files).edges =
      Cycle.markEdges cycles (aggregate (linksFor tree root aliases files)) := by
  rw [assemble_eq]
  exact ⟨_, rfl⟩

theorem map_ends_assemble :
    (assemble tree root aliases files).edges.map (·.ends) =
      (aggregate (linksFor tree root aliases files)).map (·.ends) := by
  obtain ⟨cycles, marked⟩ := exists_edges_assemble tree root aliases files
  rw [marked, markEdges_ends]

theorem mem_ends_assemble_iff (pair : String × String) :
    pair ∈ (assemble tree root aliases files).edges.map (·.ends) ↔
      pair ∈ (linksFor tree root aliases files).map (·.ends) := by
  rw [map_ends_assemble, (tally_aggregate _).mem_ends_iff]

theorem nodup_ends_assemble : ((assemble tree root aliases files).edges.map (·.ends)).Nodup := by
  rw [map_ends_assemble]
  exact (tally_aggregate _).nodup

variable {tree root aliases files}

/-- Being on a cycle is all that marking adds to an edge. -/
theorem counted_assemble {e : Edge} (member : e ∈ (assemble tree root aliases files).edges) :
    ∃ first, (linksFor tree root aliases files).find? (·.ends = e.ends) = some first ∧
      { e with isCircular := false } = Edge.ofCount e.source e.target first.kind
        (((linksFor tree root aliases files).map (·.ends)).count e.ends) := by
  obtain ⟨cycles, marked⟩ := exists_edges_assemble tree root aliases files
  rw [marked, Cycle.markEdges_eq_map] at member
  obtain ⟨plain, held, rfl⟩ := List.mem_map.1 member
  obtain ⟨first, found, made⟩ := (tally_aggregate _).counted plain held
  refine ⟨first, found, ?_⟩
  -- Before marking no edge is circular, so that clearing the mark gives the edge that was made.
  have unmarked : plain.isCircular = false := by rw [made]; rfl
  rw [← unmarked]
  exact made

theorem mem_ids_of_mem_ends {x y : String}
    (joined : (x, y) ∈ (assemble tree root aliases files).edges.map (·.ends)) :
    x ∈ files.map (·.relativePath) ∧ y ∈ files.map (·.relativePath) ∧ x ≠ y := by
  rw [mem_ends_assemble_iff] at joined
  obtain ⟨link, given, same⟩ := List.mem_map.1 joined
  obtain ⟨rfl, rfl⟩ := Prod.mk.inj same
  exact mem_linksOf given

end Assemble

/-- The resolved references of one file to another are one edge, which counts them; edges stand in
the order of their first references. -/
theorem assemble_edges (tree : FileTree) (root : Path) (aliases : AliasTable)
    (files : List SourceFile) :
    let graph := assemble tree root aliases files
    let resolver := Resolver.ofProject root aliases (files.map (·.relativePath))
    let resolved := files.flatMap fun file =>
      (Extract.references file.language file.content).filterMap fun reference =>
        (resolver.resolve? tree file reference.target).map fun target =>
          (⟨file.relativePath, target, reference.kind⟩ : Link)
    let links := resolved.filter fun link => link.source ≠ link.target
    graph.edges.map (·.ends) = (links.map (·.ends)).eraseDups ∧
      (graph.edges.map (·.ends)).Nodup ∧
      (∀ e ∈ graph.edges,
        e.count = (links.map (·.ends)).count e.ends ∧
        (links.find? (·.ends = e.ends)).map (·.kind) = some e.kind ∧
        e.weight = min e.count 5 ∧
        e.title = e.kind.tag ++ " (" ++ toString e.count ++
          (if e.count = 1 then " reference)" else " references)")) ∧
      (∀ e ∈ graph.edges, e.source ≠ e.target ∧
        e.source ∈ graph.nodes.map (·.id) ∧ e.target ∈ graph.nodes.map (·.id)) ∧
      (graph.edges.map (·.count)).sum = links.length := by
  intro graph resolver resolved links
  have linked : linksFor tree root aliases files = links := linksOf_eq_filter resolver tree files
  have tally := tally_aggregate links
  refine ⟨?_, nodup_ends_assemble tree root aliases files, ?_, ?_, ?_⟩
  · rw [map_ends_assemble, linked, tally.ends]
  · intro e member
    obtain ⟨first, found, made⟩ := counted_assemble member
    rw [linked] at found made
    rw [found, ← render_eq_toString]
    obtain ⟨-, -, count, weight, kind, title, -⟩ := Edge.mk.inj made
    rw [weight, title, kind, count]
    exact ⟨rfl, rfl, rfl, rfl⟩
  · intro e member
    obtain ⟨source, target, apart⟩ := mem_ids_of_mem_ends (List.mem_map_of_mem member)
    rw [map_id_assemble]
    exact ⟨apart, source, target⟩
  · obtain ⟨cycles, marked⟩ := exists_edges_assemble tree root aliases files
    rw [← tally.total, marked, Cycle.markEdges_eq_map, List.map_map, linked]
    rfl

end Graph

end FileGraph
