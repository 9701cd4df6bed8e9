import FileGraph.CommandLine.Grammar
import FileGraph.Graph.Query

/-! # The commands of the program

* `Invocation`: what a command line asks for.
* `form`: what may stand in a command line.
* `Invocation.parse`: reads one.
-/

namespace FileGraph.CommandLine

inductive OutputFormat where
  | text
  | json
  deriving DecidableEq, Repr

/-- Where a command gets its graph from. -/
structure GraphSource where
  path : String
  /-- The configuration document, if it is not the one in the root. -/
  config : Option String
  /-- A stored graph, which is taken instead of scanning. -/
  graph : Option String
  isSequential : Bool
  deriving DecidableEq, Repr

inductive Question where
  | cycles
  | connected (file : String) (direction : Direction)
  | hubs (metric : Metric) (top : Nat)
  | path (source target : String)
  deriving DecidableEq, Repr

inductive Command where
  | scan (source : GraphSource) (json : Option String)
  | summary (source : GraphSource) (format : Option OutputFormat)
  | query (source : GraphSource) (question : Question) (format : Option OutputFormat)
  /-- A completion script for a shell. -/
  | completions (shell : String)
  deriving DecidableEq, Repr

/-- What a command line asks for. -/
structure Invocation where
  isQuiet : Bool
  command : Command
  deriving DecidableEq, Repr

/-! ## What may stand in a command line -/

def helpSwitch : Switch := ⟨"help", some 'h', .help, false, none⟩

def versionSwitch : Switch := ⟨"version", some 'V', .version, false, none⟩

def quietSwitch : Switch := ⟨"quiet", some 'q', .flag, false, none⟩

def commonSwitches : List Switch := [quietSwitch, helpSwitch]

def valueSwitch (name : String) (form : ValueForm) : Switch := ⟨name, none, .value form, false, none⟩

def requiredSwitch (name : String) : Switch := ⟨name, none, .value .text, true, none⟩

/-- The variable of the environment that names the root of the project. -/
def pathVariable : String := "DEPGRAPH_PATH"

def sourceSwitches : List Switch := [
  ⟨"path", some 'p', .value .path, false, some pathVariable⟩,
  valueSwitch "config" .path,
  valueSwitch "graph" .path,
  ⟨"no-parallel", none, .flag, false, none⟩]

def formatSwitch : Switch := valueSwitch "format" (.oneOf ["text", "json"])

/-- A command without an argument and without commands of its own. -/
def leaf (switches : List Switch) : Form :=
  .mk (switches ++ commonSwitches) none []

def questionForm (switches : List Switch) : Form :=
  leaf (sourceSwitches ++ switches ++ [formatSwitch])

/-- The shells for which there are completion scripts. -/
def shells : List String := ["bash", "elvish", "fish", "powershell", "zsh"]

def form : Form :=
  .mk (commonSwitches ++ [versionSwitch]) none [
    ("scan", leaf (sourceSwitches ++ [valueSwitch "json" .path])),
    ("summary", questionForm []),
    ("query", .mk commonSwitches none [
      ("cycles", questionForm []),
      ("connected", questionForm [
        requiredSwitch "file",
        valueSwitch "direction" (.oneOf ["dependencies", "dependents", "both"])]),
      ("hubs", questionForm [
        valueSwitch "metric" (.oneOf ["in", "out", "total"]),
        valueSwitch "top" .unsigned]),
      ("path", questionForm [requiredSwitch "from", requiredSwitch "to"])]),
    ("completions", .mk commonSwitches
      (some ⟨"shell", none, .value (.oneOf shells), true, none⟩) [])]

/-! ## From words to commands -/

def defaultTop : Nat := 10

/-- The value of an option that is given or has a default. -/
def valueD (reading : Reading) (name otherwise : String) : String :=
  (reading.value? name).getD otherwise

def sourceOf (reading : Reading) : GraphSource where
  path := valueD reading "path" "."
  config := reading.value? "config"
  graph := reading.value? "graph"
  isSequential := reading.has "no-parallel"

def formatOf (reading : Reading) : Option OutputFormat :=
  (reading.value? "format").map fun name => if name = "json" then .json else .text

def directionOf (reading : Reading) : Direction :=
  match reading.value? "direction" with
  | some "dependencies" => .dependencies
  | some "dependents" => .dependents
  | _ => .both

def metricOf (reading : Reading) : Metric :=
  match reading.value? "metric" with
  | some "in" => .entering
  | some "out" => .leaving
  | _ => .total

def questionOf (name : String) (reading : Reading) : Question :=
  match name with
  | "connected" => .connected (valueD reading "file" "") (directionOf reading)
  | "hubs" =>
    .hubs (metricOf reading) (((reading.value? "top").bind number?).getD defaultTop)
  | "path" => .path (valueD reading "from" "") (valueD reading "to" "")
  | _ => .cycles

/-- The command that was found in a command line, and whether it is to be quiet. -/
def Invocation.ofReading (reading : Reading) : Except Refusal Invocation :=
  match reading.command with
  | none => .error .missingCommand
  | some (name, inner) =>
    let isQuiet := reading.has "quiet" || inner.has "quiet"
    match name, inner.command with
    | "scan", _ => .ok ⟨isQuiet, .scan (sourceOf inner) (inner.value? "json")⟩
    | "summary", _ => .ok ⟨isQuiet, .summary (sourceOf inner) (formatOf inner)⟩
    | "query", some (question, innermost) =>
      .ok ⟨isQuiet || innermost.has "quiet",
        .query (sourceOf innermost) (questionOf question innermost) (formatOf innermost)⟩
    | "query", none => .error .missingCommand
    | _, _ => .ok ⟨isQuiet, .completions (valueD inner "shell" "")⟩

def Invocation.parse (environment : List (String × String)) (words : List String) :
    Except Refusal Invocation := do
  Invocation.ofReading (← form.read environment words)

end FileGraph.CommandLine
