import FileGraph.Graph
import FileGraph.Json.Reader

/-! # Graphs as JSON documents

* `Graph.toJson` and `Graph.render`: the document of a graph. Keys stand in a fixed order.
* `Graph.reader` and `Graph.ofDatum?`: the form of such a document, and the graph that it holds.
* `Graph.parse`: reads a document.
* `Graph.load` and `Graph.save`: documents in files.
-/

namespace FileGraph

open Json (Datum Field)

/-! ## Limits of numbers -/

/-- Counts in a document lie below this. -/
def countLimit : Nat := UInt64.size

/-- Colour buckets in a document lie below this. -/
def groupLimit : Nat := UInt32.size

def countField (name : String) : Field :=
  ⟨name, Json.countReader countLimit, false⟩

def textField (name : String) : Field :=
  ⟨name, Json.textReader, false⟩

def flagField (name : String) : Field :=
  ⟨name, Json.flagReader, false⟩

def listField (name : String) (read : Json.Reader Datum) : Field :=
  ⟨name, Json.listReader read, false⟩

/-- The items of a list, if each of them can be had. -/
def itemsOf? {α : Type} (item? : Datum → Option α) : Datum → Option (List α)
  | .list items => items.mapM item?
  | _ => none

def textOf? : Datum → Option String
  | .text s => some s
  | _ => none

/-! ## Languages and kinds -/

namespace Language

def reader : Json.Reader Datum :=
  Json.choiceReader (all.map tag)

def ofDatum? : Datum → Option Language
  | .text name => ofTag? name
  | _ => none

end Language

namespace Kind

def reader : Json.Reader Datum :=
  Json.choiceReader (all.map tag)

def ofDatum? : Datum → Option Kind
  | .text name => ofTag? name
  | _ => none

end Kind

/-! ## Nodes -/

namespace Node

def toJson (node : Node) : Json :=
  .object [
    ("id", .string node.id),
    ("label", .string node.label),
    ("relativePath", .string node.relativePath),
    ("language", .string node.language.tag),
    ("size", .ofNat node.size),
    ("lines", .ofNat node.lines),
    ("group", .ofNat node.group),
    ("dependencyCount", .ofNat node.dependencyCount),
    ("dependentCount", .ofNat node.dependentCount),
    ("isCircular", .bool node.isCircular)]

def reader : Json.Reader Datum :=
  Json.recordReader [
    textField "id",
    textField "label",
    textField "relativePath",
    ⟨"language", Language.reader, false⟩,
    countField "size",
    countField "lines",
    ⟨"group", Json.countReader groupLimit, false⟩,
    countField "dependencyCount",
    countField "dependentCount",
    flagField "isCircular"]

def ofDatum? : Datum → Option Node
  | .record [.text id, .text label, .text relativePath, language, .count size, .count lines,
      .count group, .count dependencyCount, .count dependentCount, .flag isCircular] => do
    return ⟨id, label, relativePath, ← Language.ofDatum? language, size, lines, group,
      dependencyCount, dependentCount, isCircular⟩
  | _ => none

end Node

/-! ## Edges -/

namespace Edge

def toJson (edge : Edge) : Json :=
  .object [
    ("from", .string edge.source),
    ("to", .string edge.target),
    ("count", .ofNat edge.count),
    ("weight", .ofNat edge.weight),
    ("kind", .string edge.kind.tag),
    ("title", .string edge.title),
    ("isCircular", .bool edge.isCircular)]

def reader : Json.Reader Datum :=
  Json.recordReader [
    textField "from",
    textField "to",
    countField "count",
    countField "weight",
    ⟨"kind", Kind.reader, false⟩,
    textField "title",
    flagField "isCircular"]

def ofDatum? : Datum → Option Edge
  | .record [.text source, .text target, .count count, .count weight, kind, .text title,
      .flag isCircular] => do
    return ⟨source, target, count, weight, ← Kind.ofDatum? kind, title, isCircular⟩
  | _ => none

end Edge

/-! ## Summaries -/

namespace Summary

def toJson (summary : Summary) : Json :=
  .object [
    ("totalNodes", .ofNat summary.totalNodes),
    ("totalEdges", .ofNat summary.totalEdges),
    ("languages", .array (summary.languages.toList.map fun l => .string l.tag)),
    ("cycleCount", .ofNat summary.cycleCount),
    ("maxDependencies", .ofNat summary.maxDependencies),
    ("maxDependents", .ofNat summary.maxDependents)]

def reader : Json.Reader Datum :=
  Json.recordReader [
    countField "totalNodes",
    countField "totalEdges",
    listField "languages" Language.reader,
    countField "cycleCount",
    countField "maxDependencies",
    countField "maxDependents"]

def ofDatum? : Datum → Option Summary
  | .record [.count totalNodes, .count totalEdges, languages, .count cycleCount,
      .count maxDependencies, .count maxDependents] => do
    return ⟨totalNodes, totalEdges, .ofList (← itemsOf? Language.ofDatum? languages), cycleCount,
      maxDependencies, maxDependents⟩
  | _ => none

end Summary

/-! ## Graphs -/

namespace Graph

def cyclesJson (cycles : List (List String)) : Json :=
  .array (cycles.map fun cycle => .array (cycle.map .string))

def toJson (g : Graph) : Json :=
  .object [
    ("nodes", .array (g.nodes.map Node.toJson)),
    ("edges", .array (g.edges.map Edge.toJson)),
    ("cycles", cyclesJson g.cycles),
    ("summary", g.summary.toJson)]

def render (g : Graph) : String :=
  g.toJson.pretty

def reader : Json.Reader Datum :=
  Json.recordReader [
    listField "nodes" Node.reader,
    listField "edges" Edge.reader,
    listField "cycles" (Json.listReader Json.textReader),
    ⟨"summary", Summary.reader, false⟩]

def ofDatum? : Datum → Option Graph
  | .record [nodes, edges, cycles, summary] => do
    return ⟨← itemsOf? Node.ofDatum? nodes, ← itemsOf? Edge.ofDatum? edges,
      ← itemsOf? (itemsOf? textOf?) cycles, ← Summary.ofDatum? summary⟩
  | _ => none

def parse (text : String) : Except Json.Problem Graph := do
  let datum ← Json.document reader text
  match ofDatum? datum with
  | some g => .ok g
  | none => .error .mismatched

/-! ## Files -/

inductive LoadError where
  | unreadable (fault : Fault)
  | notGraph (problem : Json.Problem)
  deriving DecidableEq, Repr

def load (tree : FileTree) (path : Path) : Except LoadError Graph :=
  match tree.readText path with
  | .error fault => .error (.unreadable fault)
  | .ok text =>
    match parse text with
    | .error problem => .error (.notGraph problem)
    | .ok g => .ok g

def save (g : Graph) (tree : FileTree) (path : Path) : Except Fault FileTree :=
  tree.writeText path g.render

end Graph

end FileGraph
