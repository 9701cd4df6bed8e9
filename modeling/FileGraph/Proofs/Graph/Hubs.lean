import FileGraph.Graph.Query
import FileGraph.Proofs.Graph.Limits
import FileGraph.Proofs.Text.ByteOrder

/-! # The ranking of hubs

* `Graph.Outranks`: one node stands before another in a ranking by some number.
* `Graph.IsRanking`: the first places of such a ranking.
* `Graph.exists_places`: all places of a graph, of which `hubs` answers the first.
* `Graph.hubs_ranking`: the answer, where sums fit into a machine word.
* `Graph.hubs_total_of_load`: the order by totals in a stored graph, where sums may be too large.
-/

namespace FileGraph

def Metric.number (metric : Metric) (node : Node) : Nat :=
  match metric with
  | .entering => node.dependentCount
  | .leaving => node.dependencyCount
  | .total => node.dependentCount + node.dependencyCount

/-- The number of edges as far as it fits into a machine word. -/
def Metric.wrapped (metric : Metric) (node : Node) : Nat :=
  (Hub.ofNode node).rank metric

theorem Metric.wrapped_eq (metric : Metric) {node : Node}
    (fits : node.dependentCount + node.dependencyCount < wordSize) :
    metric.wrapped node = metric.number node := by
  cases metric with
  | entering => rfl
  | leaving => rfl
  | total => exact Nat.mod_eq_of_lt fits

namespace Graph

variable {g : Graph}

/-- The `i`-th node comes before the `j`-th: its number is greater; or the numbers are equal and its
id is less, byte by byte; or the ids are equal as well and it is the earlier node. -/
def Outranks (g : Graph) (number : Node → Nat) (i j : Fin g.nodes.length) : Prop :=
  number g.nodes[j] < number g.nodes[i] ∨
    number g.nodes[i] = number g.nodes[j] ∧
      (Text.bytes g.nodes[i].id < Text.bytes g.nodes[j].id ∨ g.nodes[i].id = g.nodes[j].id ∧ i < j)

/-- The first `top` places of the ranking by a number. -/
structure IsRanking (g : Graph) (number : Node → Nat) (top : Nat)
    (places : List (Fin g.nodes.length)) : Prop where
  nodup : places.Nodup
  length : places.length = min top g.nodes.length
  ordered : places.Pairwise (g.Outranks number)
  best : ∀ i ∈ places, ∀ j ∉ places, g.Outranks number i j

def rows (g : Graph) (places : List (Fin g.nodes.length)) : List Hub :=
  places.map fun i => .ofNode g.nodes[i]

end Graph

/-! ## The order of rows -/

namespace Hub

variable {metric : Metric} {a b c : Hub}

theorem before_iff : a.before metric b = true ↔
    b.rank metric < a.rank metric ∨ a.rank metric = b.rank metric ∧ a.id ≤ b.id := by
  simp [before]

theorem before_trans (a b c : Hub) (first : a.before metric b = true)
    (second : b.before metric c = true) : a.before metric c = true := by
  rw [before_iff] at first second ⊢
  obtain greater | ⟨same, le⟩ := first
  · exact .inl (by omega)
  · obtain greater | ⟨same', le'⟩ := second
    · exact .inl (by omega)
    · exact .inr ⟨same.trans same', String.le_trans le le'⟩

theorem before_total (a b : Hub) : (a.before metric b || b.before metric a) = true := by
  rw [Bool.or_eq_true, before_iff, before_iff]
  obtain less | same | greater := Nat.lt_trichotomy (a.rank metric) (b.rank metric)
  · exact .inr (.inl less)
  · exact (String.le_total a.id b.id).imp (fun le => .inr ⟨same, le⟩) fun le => .inr ⟨same.symm, le⟩
  · exact .inl (.inl greater)

theorem id_eq_of_before (forth : a.before metric b = true) (back : b.before metric a = true) :
    a.id = b.id := by
  rw [before_iff] at forth back
  obtain greater | ⟨same, le⟩ := forth
  · obtain greater' | ⟨same', -⟩ := back <;> omega
  · obtain greater' | ⟨-, le'⟩ := back
    · omega
    · exact String.le_antisymm le le'

/-- With different ids, rows have but one order. -/
theorem mergeSort_eq {rows sorted : List Hub} (distinct : (rows.map (·.id)).Nodup)
    (perm : sorted.Perm rows) (ordered : sorted.Pairwise fun a b => a.before metric b = true) :
    rows.mergeSort (before metric) = sorted := by
  refine List.Perm.eq_of_pairwise ?_ (List.pairwise_mergeSort before_trans before_total rows)
    ordered ((List.mergeSort_perm _ _).trans perm.symm)
  intro a b left right forth back
  exact List.inj_on_of_nodup_map distinct ((List.mergeSort_perm _ _).mem_iff.1 left)
    (perm.mem_iff.1 right) (id_eq_of_before forth back)

end Hub

namespace Graph

variable {g : Graph}

/-! ## Places -/

/-- The order of the places: that of the rows, and rows that may stand before each other keep the
order of the nodes. -/
def placeBefore (g : Graph) (metric : Metric) (i j : Fin g.nodes.length) : Bool :=
  List.zipIdxLE (Hub.before metric) (.ofNode g.nodes[i], i) (.ofNode g.nodes[j], j)

theorem outranks_of_placeBefore {metric : Metric} {i j : Fin g.nodes.length} (apart : i ≠ j)
    (before : g.placeBefore metric i j = true) : g.Outranks metric.wrapped i j := by
  unfold placeBefore List.zipIdxLE at before
  dsimp only at before
  split at before
  next forth =>
    obtain greater | ⟨same, le⟩ := Hub.before_iff.1 forth
    · exact .inl greater
    · refine .inr ⟨same, ?_⟩
      by_cases less : g.nodes[i].id < g.nodes[j].id
      · exact .inl (Text.bytes_lt_bytes less)
      · have equal : g.nodes[i].id = g.nodes[j].id := String.le_antisymm le (not_lt.1 less)
        have back : (Hub.ofNode g.nodes[j]).before metric (.ofNode g.nodes[i]) = true :=
          Hub.before_iff.2 (.inr ⟨same.symm, equal.symm.le⟩)
        rw [if_pos back] at before
        exact .inr ⟨equal, lt_of_le_of_ne (of_decide_eq_true before) apart⟩
  next => cases before

def placesBy (g : Graph) (metric : Metric) : List (Fin g.nodes.length) :=
  (List.finRange g.nodes.length).mergeSort (g.placeBefore metric)

theorem rows_placesBy (g : Graph) (metric : Metric) :
    g.rows (g.placesBy metric) = (g.nodes.map .ofNode).mergeSort (Hub.before metric) := by
  have numbered : (List.finRange g.nodes.length).map
      (fun i => (Hub.ofNode g.nodes[i], i.val)) = (g.nodes.map .ofNode).zipIdx := by
    refine List.ext_getElem (by simp) fun i _ _ => ?_
    simp
  -- Sorting the numbered rows is stable sorting of the rows; their numbers are the places.
  have sorted := List.map_mergeSort (r := g.placeBefore metric)
    (s := List.zipIdxLE (Hub.before metric)) (f := fun i => (Hub.ofNode g.nodes[i], i.val))
    (l := List.finRange g.nodes.length) fun _ _ _ _ => rfl
  rw [← List.mergeSort_zipIdx, ← numbered, ← sorted, List.map_map]
  rfl

theorem placesBy_perm (g : Graph) (metric : Metric) :
    (g.placesBy metric).Perm (List.finRange g.nodes.length) :=
  List.mergeSort_perm _ _

theorem nodup_placesBy (g : Graph) (metric : Metric) : (g.placesBy metric).Nodup :=
  (g.placesBy_perm metric).nodup_iff.2 (List.nodup_finRange _)

theorem pairwise_placesBy (g : Graph) (metric : Metric) :
    (g.placesBy metric).Pairwise (g.Outranks metric.wrapped) := by
  have sorted : (g.placesBy metric).Pairwise fun i j => g.placeBefore metric i j = true :=
    List.pairwise_mergeSort
      (fun i j k => List.zipIdxLE_trans Hub.before_trans (.ofNode g.nodes[i], i.val)
        (.ofNode g.nodes[j], j.val) (.ofNode g.nodes[k], k.val))
      (fun i j => List.zipIdxLE_total Hub.before_total (.ofNode g.nodes[i], i.val)
        (.ofNode g.nodes[j], j.val)) _
  refine (sorted.and (g.nodup_placesBy metric)).imp ?_
  rintro i j ⟨before, apart⟩
  exact outranks_of_placeBefore apart before

theorem hubs_eq_rows (g : Graph) (metric : Metric) (top : Nat) :
    g.hubs metric top = g.rows ((g.placesBy metric).take top) := by
  rw [hubs, ← rows_placesBy, rows, rows, List.map_take]

theorem isRanking_take (g : Graph) (metric : Metric) (top : Nat) :
    g.IsRanking metric.wrapped top ((g.placesBy metric).take top) where
  nodup := (g.nodup_placesBy metric).sublist (List.take_sublist _ _)
  length := by
    rw [List.length_take, (g.placesBy_perm metric).length_eq, List.length_finRange]
  ordered := (g.pairwise_placesBy metric).take
  best := by
    intro i first j later
    have all := g.pairwise_placesBy metric
    rw [← List.take_append_drop top (g.placesBy metric)] at all
    refine (List.pairwise_append.1 all).2.2 i first j ?_
    have member := (g.placesBy_perm metric).mem_iff.2 (List.mem_finRange j)
    rw [← List.take_append_drop top (g.placesBy metric)] at member
    exact (List.mem_append.1 member).resolve_left later

theorem IsRanking.congr {number number' : Node → Nat} {top : Nat}
    {places : List (Fin g.nodes.length)} (ranking : g.IsRanking number top places)
    (same : ∀ node ∈ g.nodes, number node = number' node) : g.IsRanking number' top places := by
  have outranks : ∀ i j, g.Outranks number i j → g.Outranks number' i j := by
    intro i j
    have left := same g.nodes[i] (List.getElem_mem i.isLt)
    have right := same g.nodes[j] (List.getElem_mem j.isLt)
    unfold Outranks
    rw [left, right]
    exact id
  exact ⟨ranking.nodup, ranking.length, ranking.ordered.imp (outranks _ _),
    fun i first j later => outranks i j (ranking.best i first j later)⟩

theorem hubs_perm {h : Graph} (distinct : (g.nodes.map (·.id)).Nodup)
    (perm : h.nodes.Perm g.nodes) (metric : Metric) (top : Nat) :
    h.hubs metric top = g.hubs metric top := by
  have ids : ((h.nodes.map Hub.ofNode).map (·.id)).Nodup := by
    rw [List.map_map]
    exact (perm.map _).nodup_iff.2 distinct
  rw [hubs, hubs]
  congr 1
  exact Hub.mergeSort_eq ids ((List.mergeSort_perm _ _).trans (perm.map _).symm)
    (List.pairwise_mergeSort Hub.before_trans Hub.before_total _)

/-- Where the sums of edges fit into a machine word, the answer is the first part of the ranking by
the number asked for. A greater `top` answers more of the same, and the order of nodes does not count
if their ids are different. -/
theorem hubs_ranking
    (fits : ∀ node ∈ g.nodes, node.dependentCount + node.dependencyCount < wordSize)
    (metric : Metric) (top : Nat) :
    (∃ places, g.IsRanking metric.number top places ∧ g.hubs metric top = g.rows places) ∧
    (∀ more, top ≤ more → g.hubs metric top <+: g.hubs metric more) ∧
    ((g.nodes.map (·.id)).Nodup → ∀ h : Graph, h.nodes.Perm g.nodes →
      h.hubs metric top = g.hubs metric top) := by
  refine ⟨⟨(g.placesBy metric).take top, ?_, hubs_eq_rows g metric top⟩, ?_, ?_⟩
  · exact (g.isRanking_take metric top).congr fun node member =>
      metric.wrapped_eq (fits node member)
  · intro more le
    exact List.take_prefix_take_left le
  · exact fun distinct h perm => hubs_perm distinct perm metric top

/-- Two nodes with the greatest total that a machine word holds, and one with a smaller one. -/
def level : Graph where
  nodes := [
    { Node.ofSource ⟨⟨"/c"⟩, "c", "", .rust⟩ with dependencyCount := 1 },
    { Node.ofSource ⟨⟨"/b"⟩, "b", "", .rust⟩ with dependentCount := 18446744073709551615 },
    { Node.ofSource ⟨⟨"/a"⟩, "a", "", .rust⟩ with dependencyCount := 18446744073709551615 }]
  edges := []
  cycles := []
  summary := ⟨3, 0, .ofList [.rust], 0, 18446744073709551615, 18446744073709551615⟩

theorem hubs_ranking_level :
    (∀ node ∈ level.nodes, node.dependentCount + node.dependencyCount < wordSize) ∧
      (level.nodes.map (·.id)).Nodup ∧
      { level with nodes := level.nodes.reverse }.hubs .total 2 =
        [⟨"a", 0, 18446744073709551615⟩, ⟨"b", 18446744073709551615, 0⟩] := by
  have fits : ∀ node ∈ level.nodes, node.dependentCount + node.dependencyCount < wordSize := by
    decide
  have distinct : (level.nodes.map (·.id)).Nodup := by decide
  have sorted : (level.nodes.map .ofNode).mergeSort (Hub.before .total) =
      [⟨"a", 0, 18446744073709551615⟩, ⟨"b", 18446744073709551615, 0⟩, ⟨"c", 0, 1⟩] :=
    Hub.mergeSort_eq (by decide) (by decide) (by decide)
  obtain ⟨-, -, reordered⟩ := hubs_ranking fits .total 2
  refine ⟨fits, distinct, ?_⟩
  rw [reordered distinct _ (List.reverse_perm _), hubs, sorted]
  rfl

/-! ## Totals that are too large -/

theorem sublist_or_sublist {α : Type} {items : List α} {a b : α} (apart : a ≠ b) (left : a ∈ items)
    (right : b ∈ items) : [a, b].Sublist items ∨ [b, a].Sublist items := by
  obtain ⟨before, behind, rfl⟩ := List.append_of_mem left
  cases List.mem_append.1 right with
  | inl inside =>
    exact .inr ((List.singleton_sublist.2 inside).append
      (List.singleton_sublist.2 List.mem_cons_self))
  | inr inside =>
    have inside := (List.mem_cons.1 inside).resolve_left (Ne.symm apart)
    exact .inl (((List.singleton_sublist.2 inside).cons_cons a).trans (List.sublist_append_right _ _))

theorem Outranks.asymm {number : Node → Nat} {i j : Fin g.nodes.length}
    (forth : g.Outranks number i j) : ¬ g.Outranks number j i := by
  intro back
  obtain greater | ⟨same, forth⟩ := forth
  · obtain greater' | ⟨same', -⟩ := back <;> omega
  · obtain greater' | ⟨-, back⟩ := back
    · omega
    · obtain less | ⟨equal, earlier⟩ := forth
      · obtain less' | ⟨equal, -⟩ := back
        · exact List.lt_asymm less less'
        · exact List.lt_irrefl _ (equal ▸ less)
      · obtain less | ⟨-, earlier'⟩ := back
        · exact List.lt_irrefl _ (equal ▸ less)
        · exact lt_asymm earlier earlier'

theorem sublist_placesBy_iff {metric : Metric} {i j : Fin g.nodes.length} (apart : i ≠ j) :
    [i, j].Sublist (g.placesBy metric) ↔ g.Outranks metric.wrapped i j := by
  have ordered {k l} : [k, l].Sublist (g.placesBy metric) → g.Outranks metric.wrapped k l :=
    List.pairwise_iff_forall_sublist.1 (g.pairwise_placesBy metric)
  have member : ∀ k, k ∈ g.placesBy metric := fun k =>
    (g.placesBy_perm metric).mem_iff.2 (List.mem_finRange k)
  refine ⟨ordered, fun outranks => ?_⟩
  exact (sublist_or_sublist apart (member i) (member j)).resolve_right fun first =>
    outranks.asymm (ordered first)

/-- Totals of a stored graph are ranked by what a machine word keeps of them. A node with a greater
total stands first if both totals fit into a word, or neither does; otherwise only if the greater one
exceeds the other by more than a word, or by a word and the ids, then the places, say so. -/
theorem hubs_total_of_load {tree : FileTree} {path : Path} (loaded : load tree path = .ok g) :
    let total (i : Fin g.nodes.length) := Metric.total.number g.nodes[i]
    ∃ places : List (Fin g.nodes.length), places.Perm (List.finRange g.nodes.length) ∧
      (∀ top, g.hubs .total top = g.rows (places.take top)) ∧
      ∀ i j, total j < total i → ([i, j].Sublist places ↔
        total i < wordSize ∨ wordSize ≤ total j ∨ total j + wordSize < total i ∨
          total j + wordSize = total i ∧ (Text.bytes g.nodes[i].id < Text.bytes g.nodes[j].id ∨
            g.nodes[i].id = g.nodes[j].id ∧ i < j)) := by
  intro total
  refine ⟨g.placesBy .total, g.placesBy_perm .total, hubs_eq_rows g .total, fun i j less => ?_⟩
  have apart : i ≠ j := by
    rintro rfl
    exact lt_irrefl _ less
  -- A total is below two words: it is what is kept of it, or a word more.
  have wrapped : ∀ k, Metric.total.wrapped g.nodes[k] = total k % 18446744073709551616 := fun _ => rfl
  have word : wordSize = 18446744073709551616 := rfl
  have bound : ∀ k, total k < 2 * 18446744073709551616 := by
    intro k
    have fits := (fits_of_load loaded).nodes g.nodes[k] (List.getElem_mem k.isLt)
    have dependencies : g.nodes[k].dependencyCount < 18446744073709551616 := fits.dependencyCount
    have dependents : g.nodes[k].dependentCount < 18446744073709551616 := fits.dependentCount
    change g.nodes[k].dependentCount + g.nodes[k].dependencyCount < _
    omega
  have left := bound i
  have right := bound j
  rw [sublist_placesBy_iff apart, Outranks, wrapped, wrapped, word]
  by_cases tie : Text.bytes g.nodes[i].id < Text.bytes g.nodes[j].id ∨
      g.nodes[i].id = g.nodes[j].id ∧ i < j
  · simp only [tie, and_true]
    omega
  · simp only [tie, and_false, or_false]
    omega

/-- A graph with a node of more edges than a machine word counts, and one of a single edge. -/
def crowded : Graph where
  nodes := [
    { Node.ofSource ⟨⟨"/a"⟩, "a", "", .typeScript⟩ with
      dependencyCount := 1, dependentCount := 18446744073709551615 },
    { Node.ofSource ⟨⟨"/b"⟩, "b", "", .typeScript⟩ with dependentCount := 1 }]
  edges := []
  cycles := []
  summary := ⟨2, 0, .ofList [.typeScript], 0, 1, 18446744073709551615⟩

/-- The graph in the only file. -/
def crowdedTree : FileTree :=
  FileTree.fill { top := .folder [], here := [] } ["g.json"] crowded.render.toUTF8

theorem load_crowdedTree : load crowdedTree ⟨"g.json"⟩ = .ok crowded := by
  have fits : crowded.Fits :=
    { nodes := List.forall_mem_cons.2 ⟨⟨by decide, by decide, by decide, by decide, by decide⟩,
        List.forall_mem_singleton.2 ⟨by decide, by decide, by decide, by decide, by decide⟩⟩
      edges := List.forall_mem_nil _
      summary := ⟨by decide, by decide, by decide, by decide, by decide⟩ }
  have writable : FileTree.writable { top := .folder [], here := [] } ⟨"g.json"⟩ = .ok ["g.json"] := by
    have steps : FileTree.steps "g.json" = ["g.json"] := by decide
    refine FileTree.writable_eq_ok_iff.2 ⟨by decide, by decide, ?_, nofun, rfl⟩
    rw [steps]
    exact .last (by decide) fun _ standing => by cases standing
  have hasHere : FileTree.HasHere { top := .folder [], here := [] } := ⟨[], rfl⟩
  exact load_eq fits (FileTree.readText_fill hasHere writable Mode.isFaithful_plain crowded.render)

/-- The node of the greater total does not stand first, since it exceeds the other by less than a
word. -/
theorem hubs_total_of_load_crowded :
    let a : Fin crowded.nodes.length := ⟨0, by decide⟩
    let b : Fin crowded.nodes.length := ⟨1, by decide⟩
    load crowdedTree ⟨"g.json"⟩ = .ok crowded ∧ ∃ places,
      (∀ top, crowded.hubs .total top = crowded.rows (places.take top)) ∧
        ¬ [a, b].Sublist places := by
  intro a b
  obtain ⟨places, -, rows, first⟩ := hubs_total_of_load load_crowdedTree
  exact ⟨load_crowdedTree, places, rows, mt (first a b (by decide)).1 (by decide)⟩

/-- The node of the smaller total stands first. -/
theorem hubs_total_crowded :
    load crowdedTree ⟨"g.json"⟩ = .ok crowded ∧
      crowded.nodes.map Metric.total.number = [18446744073709551616, 1] ∧
      crowded.hubs .total 2 = [⟨"b", 1, 0⟩, ⟨"a", 18446744073709551615, 1⟩] := by
  have sorted : (crowded.nodes.map .ofNode).mergeSort (Hub.before .total) =
      [⟨"b", 1, 0⟩, ⟨"a", 18446744073709551615, 1⟩] :=
    Hub.mergeSort_eq (by decide) (by decide) (by decide)
  refine ⟨load_crowdedTree, by decide, ?_⟩
  rw [hubs, sorted]
  rfl

end Graph

end FileGraph
