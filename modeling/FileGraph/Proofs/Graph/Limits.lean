import FileGraph.Proofs.Digraph.Closed
import FileGraph.Proofs.Graph.Counters
import FileGraph.Proofs.Graph.Document
import FileGraph.Proofs.Graph.Rescan
import FileGraph.Proofs.Json.Yield
import FileGraph.Proofs.Statement.Amount
import Mathlib.Algebra.BigOperators.Ring.List

/-! # Graphs whose numbers can be stored

Documents hold numbers of 64 bits. A graph that was read has no others, and neither has that of a
project with less to read than `bulkLimit`.

* `Graph.fits_of_load`: graphs that are loaded.
* `SourceFile.bulk`: how much there is to read in source files.
* `Graph.fits_assemble`, `Graph.fits_scan`: graphs of source files and of whole projects.
-/

namespace FileGraph

open Json (Datum Field Yields record_of_yields list_of_yields count_of_yields)

/-! ## Graphs that are read -/

theorem lt_of_takes {name : String} {limit n : Nat}
    (takes : Field.Takes ⟨name, Json.countReader limit, false⟩ (.count n)) : n < limit := by
  cases takes with
  | inl yields =>
    obtain ⟨_, small, same⟩ := count_of_yields yields
    cases same
    exact small
  | inr absent => cases absent.1

theorem yields_of_takes {field : Field} {value : Datum} (takes : field.Takes value)
    (needed : field.canBeAbsent = false) : Yields field.read value := by
  cases takes with
  | inl yields => exact yields
  | inr absent => cases needed.symm.trans absent.1

theorem mem_of_itemsOf? {α : Type} {item? : Datum → Option α} {items : List Datum} {xs : List α}
    (read : itemsOf? item? (.list items) = some xs) :
    ∀ x ∈ xs, ∃ item ∈ items, item? item = some x := by
  change items.mapM item? = some xs at read
  induction items generalizing xs with
  | nil =>
    rw [List.mapM_nil] at read
    cases read
    exact List.forall_mem_nil _
  | cons item items ih =>
    rw [List.mapM_cons] at read
    obtain ⟨x, first, read⟩ := Option.bind_eq_some_iff.1 read
    obtain ⟨later, others, read⟩ := Option.bind_eq_some_iff.1 read
    cases read
    refine List.forall_mem_cons.2 ⟨⟨item, List.mem_cons_self, first⟩, fun y member => ?_⟩
    obtain ⟨other, given, same⟩ := ih others y member
    exact ⟨other, List.mem_cons_of_mem item given, same⟩

theorem Node.fits_of_yields {datum : Datum} {node : Node} (yields : Yields reader datum)
    (read : ofDatum? datum = some node) : node.Fits := by
  obtain ⟨values, rfl, takes⟩ := record_of_yields (by decide) yields
  unfold ofDatum? at read
  split at read
  next shape =>
    cases shape
    obtain ⟨language, -, made⟩ := Option.bind_eq_some_iff.1 read
    cases made
    simp only [List.forall₂_cons] at takes
    obtain ⟨-, -, -, -, size, lines, group, dependencies, dependents, -⟩ := takes
    exact ⟨lt_of_takes size, lt_of_takes lines, lt_of_takes group, lt_of_takes dependencies,
      lt_of_takes dependents⟩
  next => cases read

theorem Edge.fits_of_yields {datum : Datum} {edge : Edge} (yields : Yields reader datum)
    (read : ofDatum? datum = some edge) : edge.Fits := by
  obtain ⟨values, rfl, takes⟩ := record_of_yields (by decide) yields
  unfold ofDatum? at read
  split at read
  next shape =>
    cases shape
    obtain ⟨kind, -, made⟩ := Option.bind_eq_some_iff.1 read
    cases made
    simp only [List.forall₂_cons] at takes
    obtain ⟨-, -, count, weight, -⟩ := takes
    exact ⟨lt_of_takes count, lt_of_takes weight⟩
  next => cases read

theorem Summary.fits_of_yields {datum : Datum} {summary : Summary} (yields : Yields reader datum)
    (read : ofDatum? datum = some summary) : summary.Fits := by
  obtain ⟨values, rfl, takes⟩ := record_of_yields (by decide) yields
  unfold ofDatum? at read
  split at read
  next shape =>
    cases shape
    obtain ⟨languages, -, made⟩ := Option.bind_eq_some_iff.1 read
    cases made
    simp only [List.forall₂_cons] at takes
    obtain ⟨nodes, edges, -, cycles, dependencies, dependents, -⟩ := takes
    exact ⟨lt_of_takes nodes, lt_of_takes edges, lt_of_takes cycles, lt_of_takes dependencies,
      lt_of_takes dependents⟩
  next => cases read

theorem forall_mem_of_takes {α : Type} {name : String} {read : Json.Reader Datum}
    {item? : Datum → Option α} {fits : α → Prop} {value : Datum} {xs : List α}
    (each : ∀ datum x, Yields read datum → item? datum = some x → fits x)
    (takes : (listField name read).Takes value) (items : itemsOf? item? value = some xs) :
    ∀ x ∈ xs, fits x := by
  obtain ⟨values, rfl, yields⟩ := list_of_yields (yields_of_takes takes rfl)
  intro x member
  obtain ⟨item, given, same⟩ := mem_of_itemsOf? items x member
  exact each item x (yields item given) same

namespace Graph

theorem fits_of_parse {text : String} {g : Graph} (parsed : parse text = .ok g) : g.Fits := by
  obtain ⟨datum, read, parsed⟩ := Json.exists_of_bind_eq_ok parsed
  obtain ⟨values, rfl, takes⟩ := record_of_yields (by decide) (Json.yields_of_document read)
  split at parsed
  next h made =>
    cases parsed
    unfold ofDatum? at made
    split at made
    next shape =>
      cases shape
      obtain ⟨nodes, nodesRead, made⟩ := Option.bind_eq_some_iff.1 made
      obtain ⟨edges, edgesRead, made⟩ := Option.bind_eq_some_iff.1 made
      obtain ⟨cycles, -, made⟩ := Option.bind_eq_some_iff.1 made
      obtain ⟨summary, summaryRead, made⟩ := Option.bind_eq_some_iff.1 made
      cases made
      simp only [List.forall₂_cons] at takes
      obtain ⟨nodesTake, edgesTake, -, summaryTakes, -⟩ := takes
      exact {
        nodes := forall_mem_of_takes (fun _ _ => Node.fits_of_yields) nodesTake nodesRead
        edges := forall_mem_of_takes (fun _ _ => Edge.fits_of_yields) edgesTake edgesRead
        summary := Summary.fits_of_yields (yields_of_takes summaryTakes rfl) summaryRead }
    next => cases made
  next => cases parsed

theorem fits_of_load {tree : FileTree} {path : Path} {g : Graph}
    (loaded : load tree path = .ok g) : g.Fits := by
  unfold load at loaded
  split at loaded
  next => cases loaded
  next text _ =>
    split at loaded
    next => cases loaded
    next h parsed =>
      cases loaded
      exact fits_of_parse parsed

end Graph

/-! ## Graphs of source files -/

namespace SourceFile

variable {files : List SourceFile}

/-- How much there is to read: the bytes of the texts, and one more for each file. -/
def bulk (files : List SourceFile) : Nat :=
  (files.map fun file => file.content.utf8ByteSize + 1).sum

theorem size_lt_bulk {file : SourceFile} (member : file ∈ files) :
    file.content.utf8ByteSize < bulk files := by
  have given := List.mem_map_of_mem (f := fun f : SourceFile => f.content.utf8ByteSize + 1) member
  exact Nat.lt_of_succ_le (List.le_sum_of_mem given)

theorem length_le_bulk (files : List SourceFile) : files.length ≤ bulk files := by
  have filled := List.length_le_sum_of_one_le
    (files.map fun file => file.content.utf8ByteSize + 1) (by simp)
  rwa [List.length_map] at filled

end SourceFile

open SourceFile (bulk size_lt_bulk length_le_bulk)

/-- Where less than this is to be read, no number gets too large to be stored. A scan holds all texts
in memory at once, and processors address no more than `2 ^ 57` bytes of it. -/
def bulkLimit : Nat := 2 ^ 61

theorem length_linksOf_le (resolver : Resolver) (tree : FileTree) (files : List SourceFile) :
    (linksOf resolver tree files).length ≤ 4 * bulk files := by
  have each : ∀ file ∈ files, (linksOfFile resolver tree file).length ≤
      4 * (file.content.utf8ByteSize + 1) := by
    intro file _
    have references := Extract.length_references_le file.language file.content
    have resolved : (linksOfFile resolver tree file).length ≤
        (Extract.references file.language file.content).length := by
      rw [linksOfFile_eq_filterMap]
      exact List.length_filterMap_le _ _
    have characters := Text.length_le_utf8ByteSize file.content
    omega
  calc (linksOf resolver tree files).length
      _ = (files.map fun file => (linksOfFile resolver tree file).length).sum :=
        List.length_flatMap
      _ ≤ (files.map fun file => 4 * (file.content.utf8ByteSize + 1)).sum := List.sum_le_sum each
      _ = 4 * bulk files := List.sum_map_mul_left ..

theorem Tally.length_le {links : List Link} {edges : List Edge} (tally : Tally links edges) :
    edges.length ≤ links.length := by
  have counted : ∀ count ∈ edges.map (·.count), 1 ≤ count := by
    refine List.forall_mem_map.2 fun e member => ?_
    obtain ⟨first, -, made⟩ := tally.counted e member
    rw [made]
    exact List.count_pos_iff.2 ((tally.mem_ends_iff _).1 (List.mem_map_of_mem member))
  have bound := List.length_le_sum_of_one_le _ counted
  rwa [tally.total, List.length_map] at bound

/-- Ids may stand twice here, and only one of the nodes with an id has its edges counted. -/
theorem exists_of_mem_countReferences {edges : List Edge} {nodes : List Node} {node : Node}
    (member : node ∈ countReferences edges nodes) :
    ∃ old ∈ nodes, node = old ∨ node = old.counted edges := by
  induction nodes with
  | nil => cases member
  | cons first later ih =>
    rw [countReferences_node] at member
    cases List.mem_cons.1 member with
    | inl here =>
      refine ⟨first, List.mem_cons_self, ?_⟩
      rw [here]
      split
      · exact .inl rfl
      · exact .inr rfl
    | inr there =>
      obtain ⟨old, held, counted⟩ := ih there
      exact ⟨old, List.mem_cons_of_mem first held, counted⟩

theorem foldl_max_le {xs : List Nat} {most start : Nat} (low : start ≤ most)
    (all : ∀ x ∈ xs, x ≤ most) : xs.foldl max start ≤ most := by
  induction xs generalizing start with
  | nil => exact low
  | cons x xs ih =>
    obtain ⟨first, later⟩ := List.forall_mem_cons.1 all
    exact ih (Nat.max_le.2 ⟨low, first⟩) later

theorem Language.group_lt (l : Language) : l.group < groupLimit := by
  cases l <;> decide

namespace Graph

variable {tree : FileTree} {root : Path} {aliases : AliasTable} {files : List SourceFile}

theorem length_edges_assemble_le :
    (assemble tree root aliases files).edges.length ≤ 4 * bulk files := by
  have links := length_linksOf_le
    (.ofProject root aliases (files.map (·.relativePath))) tree files
  have tally := (tally_aggregate (linksFor tree root aliases files)).length_le
  rw [← List.length_map Edge.ends, map_ends_assemble, List.length_map]
  exact tally.trans links

theorem length_nodes_assemble :
    (assemble tree root aliases files).nodes.length = files.length := by
  have ids := congrArg List.length (map_id_assemble tree root aliases files)
  rwa [List.length_map, List.length_map] at ids

theorem length_cycles_assemble_le :
    (assemble tree root aliases files).cycles.length ≤
      (assemble tree root aliases files).edges.length + files.length := by
  let plain := aggregate (linksFor tree root aliases files)
  have bound := Cycle.length_detect_le ((countReferences plain (files.map .ofSource)).map (·.id))
    (plain.map (·.ends))
  have ids := congrArg List.length (map_id_countReferences plain (files.map .ofSource))
  rw [ids, List.length_map, List.length_map, List.length_map] at bound
  rwa [← List.length_map Edge.ends, map_ends_assemble, List.length_map, assemble_eq]

theorem node_le_of_mem_assemble {node : Node}
    (member : node ∈ (assemble tree root aliases files).nodes) :
    ∃ file ∈ files, node.size = file.content.utf8ByteSize ∧
      node.lines = (Text.splitOn '\n' file.content.toList).length ∧
      node.group = file.language.group ∧ ∀ side, node.count side ≤
        (assemble tree root aliases files).edges.length := by
  obtain ⟨cycles, nodes⟩ := exists_nodes_assemble tree root aliases files
  obtain ⟨cycles', edges⟩ := exists_edges_assemble tree root aliases files
  rw [nodes, Cycle.markNodes_eq_map] at member
  obtain ⟨unmarked, held, rfl⟩ := List.mem_map.1 member
  obtain ⟨old, given, either⟩ := exists_of_mem_countReferences held
  obtain ⟨file, source, rfl⟩ := List.mem_map.1 given
  rw [edges, Cycle.markEdges_eq_map, List.length_map]
  cases either with
  | inl same =>
    subst same
    refine ⟨file, source, rfl, rfl, rfl, fun side => ?_⟩
    cases side <;> exact Nat.zero_le _
  | inr counted =>
    subst counted
    refine ⟨file, source, rfl, rfl, rfl, fun side => ?_⟩
    have few := List.countP_le_length (p := (·.at side == file.relativePath))
      (l := aggregate (linksFor tree root aliases files))
    cases side with
    | dependencies => exact (Nat.zero_add _).trans_le few
    | dependents => exact (Nat.zero_add _).trans_le few

theorem fits_assemble (small : bulk files < bulkLimit) :
    (assemble tree root aliases files).Fits := by
  -- Whatever is counted in a graph is at most eight times what there is to read.
  have edges : (assemble tree root aliases files).edges.length ≤ 4 * bulk files :=
    length_edges_assemble_le
  have cycles : (assemble tree root aliases files).cycles.length ≤
      (assemble tree root aliases files).edges.length + files.length := length_cycles_assemble_le
  have number := length_le_bulk files
  have limit : 8 * bulkLimit = countLimit := by decide
  have counts : ∀ node ∈ (assemble tree root aliases files).nodes, ∀ side,
      node.count side ≤ 4 * bulk files := by
    intro node member side
    obtain ⟨_, -, -, -, -, count⟩ := node_le_of_mem_assemble member
    exact (count side).trans edges
  have most : ∀ side, ((assemble tree root aliases files).nodes.map (·.count side)).foldl max 0 ≤
      4 * bulk files :=
    fun side => foldl_max_le (Nat.zero_le _)
      (List.forall_mem_map.2 fun node member => counts node member side)
  refine ⟨fun node member => ?_, fun e member => ?_, ?_⟩
  · obtain ⟨file, given, size, lines, group, -⟩ := node_le_of_mem_assemble member
    have large := size_lt_bulk given
    have characters := Text.length_le_utf8ByteSize file.content
    have feeds := List.count_le_length (a := '\n') (l := file.content.toList)
    have dependencies := counts node member .dependencies
    have dependents := counts node member .dependents
    rw [Text.length_splitOn] at lines
    simp only [Node.count] at dependencies dependents
    exact ⟨by omega, by omega, group ▸ Language.group_lt _, by omega, by omega⟩
  · obtain ⟨first, -, made⟩ := counted_assemble member
    obtain ⟨-, -, count, weight, -⟩ := Edge.mk.inj made
    have links : (linksFor tree root aliases files).length ≤ 4 * bulk files :=
      length_linksOf_le _ tree files
    have occurrences := List.count_le_length (a := e.ends)
      (l := (linksFor tree root aliases files).map (·.ends))
    rw [List.length_map] at occurrences
    have capped := weight ▸ Nat.min_le_left _ Edge.maxWeight
    exact ⟨by omega, by omega⟩
  · have nodes : (assemble tree root aliases files).nodes.length = files.length :=
      length_nodes_assemble
    exact {
      totalNodes := by
        change (assemble tree root aliases files).nodes.length < countLimit
        omega
      totalEdges := by
        change (assemble tree root aliases files).edges.length < countLimit
        omega
      cycleCount := by
        change (assemble tree root aliases files).cycles.length < countLimit
        omega
      maxDependencies := (most .dependencies).trans_lt (by omega)
      maxDependents := (most .dependents).trans_lt (by omega) }

end Graph

/-! ## Scanned projects -/

/-- How much there is to read in a file: its bytes, and one more for the file. -/
def Entry.size : Entry → Nat
  | file bytes _ => bytes.size + 1
  | _ => 0

/-- How much there is to read in the files at and below an entry. Folders that are never entered do not
count. -/
def Entry.bulk (entry : Entry) : Nat :=
  (entry.met.map fun item => item.2.size).sum

theorem sum_filterMap_le {α β : Type} {f : α → Option β} {size : α → Nat} {size' : β → Nat}
    {xs : List α} (le : ∀ x ∈ xs, ∀ y, f x = some y → size' y ≤ size x) :
    ((xs.filterMap f).map size').sum ≤ (xs.map size).sum := by
  induction xs with
  | nil => exact Nat.le_refl _
  | cons x xs ih =>
    obtain ⟨here, later⟩ := List.forall_mem_cons.1 le
    have rest := ih later
    rw [List.map_cons, List.sum_cons]
    cases made : f x with
    | none =>
      rw [List.filterMap_cons_none made]
      omega
    | some y =>
      have first := here y made
      rw [List.filterMap_cons_some made, List.map_cons, List.sum_cons]
      omega

theorem Text.utf8ByteSize_of_fromUTF8? {bytes : ByteArray} {text : String}
    (read : String.fromUTF8? bytes = some text) : text.utf8ByteSize = bytes.size := by
  unfold String.fromUTF8? at read
  split at read
  next =>
    cases read
    rfl
  next => cases read

theorem SourceFile.bulk_below_le {tree : FileTree} {location : Location} {root : Path} {entry : Entry}
    {files : List SourceFile} (found : below tree location root entry = .ok files) :
    bulk files ≤ entry.bulk := by
  obtain ⟨-, rfl⟩ := gather_eq_ok_iff.1 found
  rw [Entry.bulk, ← ((Entry.met_ordered_perm entry).map _).sum_eq]
  refine sum_filterMap_le fun item _ file made => ?_
  obtain ⟨bytes, mode, isFile, made⟩ := admit?_eq_some_iff.1 made
  obtain ⟨-, -, -, -, read, -⟩ := admit?_file_eq_some_iff.1 made
  rw [isFile, Entry.size, Text.utf8ByteSize_of_fromUTF8? read]

theorem Graph.fits_scan {tree : FileTree} {options : ScanOptions} {root : Path} {g : Graph}
    (small : ∀ location entry, tree.lookup root = .ok (location, entry) → entry.bulk < bulkLimit)
    (found : scan tree options root = .ok g) : g.Fits := by
  obtain ⟨place, entries, location, files, led, -, made, rfl⟩ := scan_eq_ok_iff.1 found
  exact fits_assemble ((SourceFile.bulk_below_le made).trans_lt (small _ _ led))

end FileGraph
