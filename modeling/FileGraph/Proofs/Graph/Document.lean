import FileGraph.Graph.Document
import FileGraph.Proofs.FileTree.Write
import FileGraph.Proofs.Json.Reader

/-! # Graphs are read as they were written

* `Node.Fits`, `Edge.Fits`, `Summary.Fits`, `Graph.Fits`: numbers within the limits of a document.
* `Node.parts`, `Edge.parts`, `Summary.parts`, `Graph.parts`: the fields of a record, what is
  written for each and what is read.
* `Graph.parse_render`: the document of a graph holds that graph.
* `Graph.load_save`: saving and loading.
-/

namespace FileGraph

open Json (Datum Part Reads reads_text reads_count reads_flag reads_choice reads_list reads_record)

/-! ## Numbers within the limits -/

structure Node.Fits (node : Node) : Prop where
  size : node.size < countLimit
  lines : node.lines < countLimit
  group : node.group < groupLimit
  dependencyCount : node.dependencyCount < countLimit
  dependentCount : node.dependentCount < countLimit

structure Edge.Fits (edge : Edge) : Prop where
  count : edge.count < countLimit
  weight : edge.weight < countLimit

structure Summary.Fits (summary : Summary) : Prop where
  totalNodes : summary.totalNodes < countLimit
  totalEdges : summary.totalEdges < countLimit
  cycleCount : summary.cycleCount < countLimit
  maxDependencies : summary.maxDependencies < countLimit
  maxDependents : summary.maxDependents < countLimit

/-- A graph whose counts and colour buckets are within the limits of a document. Nothing else is
asked of it: ids may stand twice, edges may lead nowhere, and the summary may be wrong. -/
structure Graph.Fits (g : Graph) : Prop where
  nodes : ∀ node ∈ g.nodes, node.Fits
  edges : ∀ edge ∈ g.edges, edge.Fits
  summary : g.summary.Fits

theorem reads_countField {n : Nat} (fits : n < countLimit) (name : String) :
    Reads (countField name).read (.ofNat n) (.count n) :=
  reads_count fits (Nat.le_refl _)

theorem itemsOf?_map {α : Type} {item? : Datum → Option α} {datum : α → Datum}
    (inverse : ∀ x, item? (datum x) = some x) (xs : List α) :
    itemsOf? item? (.list (xs.map datum)) = some xs := by
  change (xs.map datum).mapM item? = some xs
  induction xs with
  | nil => rfl
  | cons x xs ih => simp [inverse, ih]

/-! ## Languages and kinds -/

theorem Language.reads (l : Language) : Reads reader (.string l.tag) (.text l.tag) :=
  reads_choice (List.mem_map_of_mem (mem_all l))

theorem Kind.reads (k : Kind) : Reads reader (.string k.tag) (.text k.tag) :=
  reads_choice (List.mem_map_of_mem (List.mem_of_find?_eq_some (ofTag?_tag k)))

/-! ## Nodes -/

namespace Node

def parts (node : Node) : List Part := [
  ⟨textField "id", .string node.id, .text node.id⟩,
  ⟨textField "label", .string node.label, .text node.label⟩,
  ⟨textField "relativePath", .string node.relativePath, .text node.relativePath⟩,
  ⟨⟨"language", Language.reader, false⟩, .string node.language.tag, .text node.language.tag⟩,
  ⟨countField "size", .ofNat node.size, .count node.size⟩,
  ⟨countField "lines", .ofNat node.lines, .count node.lines⟩,
  ⟨⟨"group", Json.countReader groupLimit, false⟩, .ofNat node.group, .count node.group⟩,
  ⟨countField "dependencyCount", .ofNat node.dependencyCount, .count node.dependencyCount⟩,
  ⟨countField "dependentCount", .ofNat node.dependentCount, .count node.dependentCount⟩,
  ⟨flagField "isCircular", .bool node.isCircular, .flag node.isCircular⟩]

def datum (node : Node) : Datum :=
  .record (node.parts.map (·.datum))

theorem reads {node : Node} (fits : node.Fits) : Reads reader node.toJson node.datum := by
  refine reads_record node.parts ?_ ?_
  · change List.Nodup ["id", "label", "relativePath", "language", "size", "lines", "group",
      "dependencyCount", "dependentCount", "isCircular"]
    decide
  · simp only [parts, List.forall_mem_cons]
    exact ⟨reads_text _, reads_text _, reads_text _, Language.reads _,
      reads_countField fits.size _, reads_countField fits.lines _,
      reads_count fits.group (by decide), reads_countField fits.dependencyCount _,
      reads_countField fits.dependentCount _, reads_flag _, List.forall_mem_nil _⟩

theorem ofDatum?_datum (node : Node) : ofDatum? node.datum = some node := by
  have known : Language.ofDatum? (.text node.language.tag) = some node.language :=
    Language.ofTag?_tag node.language
  simp [datum, parts, ofDatum?, known]

end Node

/-! ## Edges -/

namespace Edge

def parts (edge : Edge) : List Part := [
  ⟨textField "from", .string edge.source, .text edge.source⟩,
  ⟨textField "to", .string edge.target, .text edge.target⟩,
  ⟨countField "count", .ofNat edge.count, .count edge.count⟩,
  ⟨countField "weight", .ofNat edge.weight, .count edge.weight⟩,
  ⟨⟨"kind", Kind.reader, false⟩, .string edge.kind.tag, .text edge.kind.tag⟩,
  ⟨textField "title", .string edge.title, .text edge.title⟩,
  ⟨flagField "isCircular", .bool edge.isCircular, .flag edge.isCircular⟩]

def datum (edge : Edge) : Datum :=
  .record (edge.parts.map (·.datum))

theorem reads {edge : Edge} (fits : edge.Fits) : Reads reader edge.toJson edge.datum := by
  refine reads_record edge.parts ?_ ?_
  · change List.Nodup ["from", "to", "count", "weight", "kind", "title", "isCircular"]
    decide
  · simp only [parts, List.forall_mem_cons]
    exact ⟨reads_text _, reads_text _, reads_countField fits.count _,
      reads_countField fits.weight _, Kind.reads _, reads_text _, reads_flag _,
      List.forall_mem_nil _⟩

theorem ofDatum?_datum (edge : Edge) : ofDatum? edge.datum = some edge := by
  have known : Kind.ofDatum? (.text edge.kind.tag) = some edge.kind := Kind.ofTag?_tag edge.kind
  simp [datum, parts, ofDatum?, known]

end Edge

/-! ## Summaries -/

namespace Summary

def parts (summary : Summary) : List Part := [
  ⟨countField "totalNodes", .ofNat summary.totalNodes, .count summary.totalNodes⟩,
  ⟨countField "totalEdges", .ofNat summary.totalEdges, .count summary.totalEdges⟩,
  ⟨listField "languages" Language.reader,
    .array (summary.languages.toList.map fun l => .string l.tag),
    .list (summary.languages.toList.map fun l => .text l.tag)⟩,
  ⟨countField "cycleCount", .ofNat summary.cycleCount, .count summary.cycleCount⟩,
  ⟨countField "maxDependencies", .ofNat summary.maxDependencies, .count summary.maxDependencies⟩,
  ⟨countField "maxDependents", .ofNat summary.maxDependents, .count summary.maxDependents⟩]

def datum (summary : Summary) : Datum :=
  .record (summary.parts.map (·.datum))

theorem reads {summary : Summary} (fits : summary.Fits) :
    Reads reader summary.toJson summary.datum := by
  refine reads_record summary.parts ?_ ?_
  · change List.Nodup ["totalNodes", "totalEdges", "languages", "cycleCount", "maxDependencies",
      "maxDependents"]
    decide
  · simp only [parts, List.forall_mem_cons]
    exact ⟨reads_countField fits.totalNodes _, reads_countField fits.totalEdges _,
      reads_list fun l _ => Language.reads l, reads_countField fits.cycleCount _,
      reads_countField fits.maxDependencies _, reads_countField fits.maxDependents _,
      List.forall_mem_nil _⟩

theorem ofDatum?_datum (summary : Summary) : ofDatum? summary.datum = some summary := by
  have known : itemsOf? Language.ofDatum?
      (.list (summary.languages.toList.map fun l => .text l.tag)) =
      some summary.languages.toList :=
    itemsOf?_map Language.ofTag?_tag _
  simp [datum, parts, ofDatum?, known, LanguageSet.ofList_toList]

end Summary

/-! ## Graphs -/

namespace Graph

def cyclesDatum (cycles : List (List String)) : Datum :=
  .list (cycles.map fun cycle => .list (cycle.map .text))

def parts (g : Graph) : List Part := [
  ⟨listField "nodes" Node.reader, .array (g.nodes.map Node.toJson), .list (g.nodes.map Node.datum)⟩,
  ⟨listField "edges" Edge.reader, .array (g.edges.map Edge.toJson), .list (g.edges.map Edge.datum)⟩,
  ⟨listField "cycles" (Json.listReader Json.textReader), cyclesJson g.cycles,
    cyclesDatum g.cycles⟩,
  ⟨⟨"summary", Summary.reader, false⟩, g.summary.toJson, g.summary.datum⟩]

def datum (g : Graph) : Datum :=
  .record (g.parts.map (·.datum))

theorem reads {g : Graph} (fits : g.Fits) : Reads reader g.toJson g.datum := by
  refine reads_record g.parts ?_ ?_
  · change List.Nodup ["nodes", "edges", "cycles", "summary"]
    decide
  · simp only [parts, List.forall_mem_cons]
    exact ⟨reads_list fun node member => Node.reads (fits.nodes node member),
      reads_list fun edge member => Edge.reads (fits.edges edge member),
      reads_list fun cycle _ => reads_list fun member _ => reads_text member,
      Summary.reads fits.summary, List.forall_mem_nil _⟩

theorem ofDatum?_datum (g : Graph) : ofDatum? g.datum = some g := by
  have texts : ∀ cycle : List String,
      itemsOf? textOf? (.list (cycle.map .text)) = some cycle :=
    itemsOf?_map fun _ => rfl
  have nodes := itemsOf?_map Node.ofDatum?_datum g.nodes
  have edges := itemsOf?_map Edge.ofDatum?_datum g.edges
  have cycles : itemsOf? (itemsOf? textOf?) (cyclesDatum g.cycles) = some g.cycles :=
    itemsOf?_map texts g.cycles
  simp [datum, parts, ofDatum?, nodes, edges, cycles, Summary.ofDatum?_datum]

theorem parse_render {g : Graph} (fits : g.Fits) : parse g.render = .ok g := by
  rw [parse, render, Json.document_pretty (reads fits)]
  simp only [bind, Except.bind, ofDatum?_datum]

theorem render_injective {g h : Graph} (fits : g.Fits) (fits' : h.Fits)
    (same : g.render = h.render) : g = h := by
  have read := parse_render fits
  rw [same, parse_render fits'] at read
  exact (Except.ok.inj read).symm

theorem load_eq {tree : FileTree} {path : Path} {g : Graph} (fits : g.Fits)
    (written : tree.readText path = .ok g.render) : load tree path = .ok g := by
  rw [load, written]
  simp only [parse_render fits]

theorem save_eq_ok_iff {g : Graph} {tree saved : FileTree} {path : Path} :
    g.save tree path = .ok saved ↔ ∃ location, tree.writable path = .ok location ∧
      saved = tree.fill location g.render.toUTF8 := by
  unfold save FileTree.writeText FileTree.writeBytes
  cases tree.writable path with
  | error fault => simp [bind, Except.bind]
  | ok location => simp [bind, Except.bind, pure, Except.pure, eq_comm]

theorem readText_save {g : Graph} {tree saved : FileTree} {path : Path} (hasHere : tree.HasHere)
    (stores : tree.Stores path) (written : g.save tree path = .ok saved) :
    saved.readText path = .ok g.render := by
  obtain ⟨location, writable, rfl⟩ := save_eq_ok_iff.1 written
  obtain ⟨location', writable', faithful⟩ := stores
  obtain rfl := Except.ok.inj (writable'.symm.trans writable)
  exact FileTree.readText_fill hasHere writable faithful g.render

/-- A graph is saved in any file that stores what is written to it, and loaded from there. No other
graph has the same document, and a graph that was loaded is saved, wherever that be, as the document it
was loaded from. -/
theorem load_save {g : Graph} (fits : g.Fits) :
    (∀ (tree : FileTree) (path : Path), tree.HasHere → tree.Stores path →
      ∃ saved, g.save tree path = .ok saved ∧ saved.HasHere ∧ saved.Stores path ∧
        load saved path = .ok g) ∧
    (∀ h : Graph, h.Fits → h ≠ g → h.render ≠ g.render) ∧
    ∀ (h : Graph) (tree saved : FileTree) (path : Path), tree.HasHere → tree.Stores path →
      g.save tree path = .ok saved → load saved path = .ok h →
      ∃ text, saved.readText path = .ok text ∧ ∀ (tree' : FileTree) (path' : Path),
        h.save tree' path' = tree'.writeText path' text ∧
          ∀ saved', tree'.HasHere → tree'.Stores path' → h.save tree' path' = .ok saved' →
            saved'.readText path' = .ok text := by
  refine ⟨?_, ?_, ?_⟩
  · intro tree path hasHere stores
    obtain ⟨location, writable, faithful⟩ := stores
    have stores : tree.Stores path := ⟨location, writable, faithful⟩
    have written : g.save tree path = .ok (tree.fill location g.render.toUTF8) :=
      save_eq_ok_iff.2 ⟨location, writable, rfl⟩
    exact ⟨_, written, FileTree.hasHere_fill hasHere writable _, stores.fill hasHere writable _,
      load_eq fits (readText_save hasHere stores written)⟩
  · intro h fits' apart same
    exact apart (render_injective fits' fits same)
  · intro h tree saved path hasHere stores written loaded
    have text := readText_save hasHere stores written
    obtain rfl := Except.ok.inj ((load_eq fits text).symm.trans loaded)
    exact ⟨_, text, fun tree' path' => ⟨rfl, fun saved' hasHere' stores' again =>
      readText_save hasHere' stores' again⟩⟩

/-- Characters that are escaped, the largest numbers, a repeated id, an edge from nowhere, an empty
cycle and a summary that is wrong. -/
theorem load_save_awkward :
    let node : Node := ⟨"\"\\\n\x00", "\u2028", "\x1f\x7f", .cSharp, 18446744073709551615, 0,
      4294967295, 7, 0, true⟩
    let edge : Edge := ⟨"nowhere", "\t\r", 3, 18446744073709551615, .dynamicImport, "\x08\x0c",
      false⟩
    let g : Graph := ⟨[node, node], [edge], [[], ["x", "\""]], ⟨5, 0, .ofList [.rust, .c], 1, 2, 3⟩⟩
    let tree : FileTree := { top := .folder [("kept", .folder [])], here := ["kept"] }
    g.Fits ∧ tree.HasHere ∧ tree.Stores ⟨"../g.json"⟩ ∧ ∃ saved, g.save tree ⟨"../g.json"⟩ = .ok saved ∧
      load saved ⟨"../g.json"⟩ = .ok g ∧ { g with cycles := [] }.render ≠ g.render ∧
      ∀ again, g.save saved ⟨"../g.json"⟩ = .ok again →
        again.readText ⟨"../g.json"⟩ = saved.readText ⟨"../g.json"⟩ := by
  intro node edge g tree
  have fits : g.Fits :=
    { nodes := by
        intro member given
        obtain rfl : member = node := by simpa [g] using given
        exact ⟨by decide, by decide, by decide, by decide, by decide⟩
      edges := List.forall_mem_singleton.2 ⟨by decide, by decide⟩
      summary := ⟨by decide, by decide, by decide, by decide, by decide⟩ }
  have hasHere : tree.HasHere := ⟨[], rfl⟩
  have steps : FileTree.steps "../g.json" = ["..", "g.json"] := by decide
  have writable : tree.writable ⟨"../g.json"⟩ = .ok ["g.json"] := by
    refine FileTree.writable_eq_ok_iff.2 ⟨by decide, by decide, ?_, nofun, rfl⟩
    rw [steps]
    refine .up (.last (by decide) fun found standing => ?_)
    cases standing
  have stores : tree.Stores ⟨"../g.json"⟩ := ⟨_, writable, Mode.isFaithful_plain⟩
  obtain ⟨loads, apart, again⟩ := load_save fits
  obtain ⟨saved, written, hasHere', stores', loaded⟩ := loads tree _ hasHere stores
  refine ⟨fits, hasHere, stores, saved, written, loaded, ?_, ?_⟩
  · exact apart _ ⟨fits.nodes, fits.edges, fits.summary⟩ (by simp [g])
  · intro saved' written'
    obtain ⟨text, before, writes⟩ := again g tree saved _ hasHere stores written loaded
    rw [before, (writes saved _).2 saved' hasHere' stores' written']

end Graph

end FileGraph
