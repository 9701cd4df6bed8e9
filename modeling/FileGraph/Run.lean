import FileGraph.CommandLine
import FileGraph.Config
import FileGraph.Graph.Document
import FileGraph.Table

/-! # Carrying out commands

* `Outcome`: exit code, what is printed, and the files afterwards.
* `obtain`: the graph that a command is about, and the configuration.
* `run`: carries out a command on a tree of files.

Nothing is printed on the standard output unless the exit code is zero, and something is printed on
the standard error exactly if it is not. The events that a program logs while it runs, such as a warning
about a file that cannot be read, are not part of either.
-/

namespace FileGraph.CommandLine

/-- What a command leads to. -/
structure Outcome where
  exitCode : Nat
  output : String
  errors : String
  tree : FileTree

def Outcome.success (tree : FileTree) (output : String) : Outcome := ⟨0, output, "", tree⟩

def Outcome.failure (tree : FileTree) (exitCode : Nat) (line : String) : Outcome :=
  ⟨exitCode, "", line ++ "\n", tree⟩

/-! ## Messages -/

def loadMessage : Graph.LoadError → String
  | .unreadable fault => faultMessage fault
  | .notGraph .malformed => "JSON error: the text is not JSON"
  | .notGraph .truncated => "JSON error: the text ends too early"
  | .notGraph .mismatched => "JSON error: the document is no graph"

/-! ## Graph and configuration -/

/-- The configuration that a command goes by. One that cannot be read is none. -/
def configOf (tree : FileTree) (source : GraphSource) : Option Config :=
  match source.config with
  | some path => (Config.read tree ⟨path⟩).toOption
  | none => Config.near tree ⟨source.path⟩

def optionsOf (config : Option Config) (source : GraphSource) : Graph.ScanOptions :=
  let options := (config.map (·.scanOptions .default)).getD .default
  if source.isSequential then { options with isParallel := false } else options

/-- The graph that a command is about: a stored one, or that of a scan. An error is the line to
report. -/
def obtain (tree : FileTree) (source : GraphSource) : Except String Graph :=
  match source.graph with
  | some path =>
    match Graph.load tree ⟨path⟩ with
    | .ok g => .ok g
    | .error e => .error ("Load graph failed: " ++ loadMessage e)
  | none =>
    match Graph.scan tree (optionsOf (configOf tree source) source) ⟨source.path⟩ with
    | .ok g => .ok g
    | .error e => .error ("Scan failed: " ++ e.message)

/-- The form of an answer: as asked for, else as configured, else text. -/
def outputFormat (asked : Option OutputFormat) (config : Option Config) : OutputFormat :=
  match asked with
  | some format => format
  | none => if config.bind (·.defaultFormat) = some "json" then .json else .text

/-! ## Answers -/

/-- An answer: what is printed, or a file that is not in the graph. -/
abbrev Answer := Except String String

def jsonAnswer (value : Json) : String :=
  value.pretty ++ "\n"

def tableAnswer (headers : List String) (rows : List (List String)) : String :=
  Table.render headers rows ++ "\n"

/-- A number in an answer. -/
def shown (n : Nat) : String :=
  Text.Decimal.render n

/-- Rows with their numbers in front, counted from 1. -/
def numbered (rows : List (List String)) : List (List String) :=
  rows.mapIdx fun i row => shown (i + 1) :: row

def summaryAnswer (format : OutputFormat) (s : Summary) : String :=
  match format with
  | .json => jsonAnswer s.toJson
  | .text =>
    tableAnswer ["Metric", "Value"] [
      ["files", shown s.totalNodes],
      ["edges", shown s.totalEdges],
      ["languages", ", ".intercalate (s.languages.toList.map (·.tag))],
      ["cycles", shown s.cycleCount],
      ["max dependencies", shown s.maxDependencies],
      ["max dependents", shown s.maxDependents]]

def cyclesAnswer (format : OutputFormat) (cycles : List (List String)) : String :=
  match format with
  | .json => jsonAnswer (Graph.cyclesJson cycles)
  | .text =>
    if cycles.isEmpty then "No cycles found\n"
    else
      tableAnswer ["#", "Files", "Cycle"]
        (numbered (cycles.map fun cycle => [shown cycle.length, " -> ".intercalate cycle]))

def filesAnswer (format : OutputFormat) (files : List String) : String :=
  match format with
  | .json => jsonAnswer (.array (files.map .string))
  | .text => tableAnswer ["#", "Path"] (numbered (files.map fun file => [file]))

def hubJson (hub : Hub) : Json :=
  .object [
    ("file", .string hub.id),
    ("dependents", .ofNat hub.dependents),
    ("dependencies", .ofNat hub.dependencies)]

def hubsAnswer (format : OutputFormat) (hubs : List Hub) : String :=
  match format with
  | .json => jsonAnswer (.array (hubs.map hubJson))
  | .text =>
    tableAnswer ["File", "Dependents", "Dependencies"]
      (hubs.map fun hub => [hub.id, shown hub.dependents, shown hub.dependencies])

/-- The answer to a question. A file that is asked about must be in the graph. -/
def answer (g : Graph) (format : OutputFormat) : Question → Answer
  | .cycles => .ok (cyclesAnswer format g.cycles)
  | .connected file direction =>
    if (g.node? (cleanId file)).isNone then .error file
    else .ok (filesAnswer format (g.connected (cleanId file) direction))
  | .hubs metric top => .ok (hubsAnswer format (g.hubs metric top))
  | .path source target =>
    match [source, target].find? fun file => (g.node? file).isNone with
    | some file => .error file
    | none => .ok (filesAnswer format (g.shortestPath source target))

def scanReport (path : String) (s : Summary) : String :=
  "Scan completed for path: " ++ path ++ " (" ++ shown s.totalNodes ++ " files, " ++
    shown s.totalEdges ++ " edges, " ++ shown s.cycleCount ++ " cycles)\n"

/-! ## Commands -/

/-- Carries out a scan: stores the graph if that is asked for, and reports. -/
def runScan (tree : FileTree) (isQuiet : Bool) (source : GraphSource) (json : Option String) :
    Outcome :=
  match obtain tree source with
  | .error line => .failure tree 1 line
  | .ok g =>
    let report := if isQuiet then "" else scanReport source.path g.summary
    match json with
    | none => .success tree report
    | some target =>
      match g.save tree ⟨target⟩ with
      | .error fault =>
        .failure tree 1
          ("Failed to write JSON output " ++ target ++ ": " ++ faultMessage fault)
      | .ok tree => .success tree report

def runAnswer (tree : FileTree) (source : GraphSource) (format : Option OutputFormat)
    (answer : Graph → OutputFormat → Answer) : Outcome :=
  match obtain tree source with
  | .error line => .failure tree 1 line
  | .ok g =>
    match answer g (outputFormat format (configOf tree source)) with
    | .error file => .failure tree 2 ("Unknown file: " ++ file)
    | .ok text => .success tree text

/-- Carries out what a command line asks for. Completion scripts are empty. -/
def run (tree : FileTree) (invocation : Invocation) : Outcome :=
  match invocation.command with
  | .scan source json => runScan tree invocation.isQuiet source json
  | .summary source format =>
    runAnswer tree source format fun g format => .ok (summaryAnswer format g.summary)
  | .query source question format =>
    runAnswer tree source format fun g format => answer g format question
  | .completions _ => .success tree ""

end FileGraph.CommandLine
