import FileGraph.Graph.Build
import FileGraph.Toml.Reader

/-! # Configuration

A project may have a configuration document:

    [scan]
    parallel = false
    alias_config = "jsconfig.json"

    [query]
    default_format = "json"

* `Config`: what such a document says.
* `Config.parse` and `Config.read`: reads one.
* `Config.near`: the one in the root of a project.
* `Config.scanOptions`: scan options, overlaid with what a configuration says.
-/

namespace FileGraph

structure ScanConfig where
  isParallel : Option Bool
  aliasFile : Option String
  deriving DecidableEq, Repr

structure QueryConfig where
  /-- The form of answers where none is asked for. -/
  defaultFormat : Option String
  deriving DecidableEq, Repr

structure Config where
  scan : Option ScanConfig
  query : Option QueryConfig
  deriving DecidableEq, Repr

inductive ConfigError where
  | unreadable (fault : Fault)
  | notConfig
  deriving DecidableEq, Repr

namespace Config

def fileName : String := "polyglot-depgraph.toml"

/-- The value of a key that may be left out. `none` means that the value is of the wrong form. -/
def optional? {α : Type} (entries : Toml.Entries) (key : String) (value? : Toml → Option α) :
    Option (Option α) :=
  match entries.lookup key with
  | none => some none
  | some value => (value? value).map some

def flag? : Toml → Option Bool
  | .flag b => some b
  | _ => none

def text? : Toml → Option String
  | .string s => some s
  | _ => none

/-- What is configured about scans. It may also be given as an array of its values; a moment of time
counts as a table without known keys. -/
def scan? : Toml → Option ScanConfig
  | .table _ entries => do
    return ⟨← optional? entries "parallel" flag?, ← optional? entries "alias_config" text?⟩
  | .moment _ => some ⟨none, none⟩
  | .array (parallel :: aliasFile :: _) => do
    return ⟨some (← flag? parallel), some (← text? aliasFile)⟩
  | _ => none

/-- What is configured about questions, likewise. -/
def query? : Toml → Option QueryConfig
  | .table _ entries => do return ⟨← optional? entries "default_format" text?⟩
  | .moment _ => some ⟨none⟩
  | .array (format :: _) => do return ⟨some (← text? format)⟩
  | _ => none

/-- Reads a configuration document. Keys that are not known do not matter. -/
def parse (document : String) : Option Config := do
  let entries ← Toml.parse document
  return ⟨← optional? entries "scan" scan?, ← optional? entries "query" query?⟩

def read (tree : FileTree) (path : Path) : Except ConfigError Config :=
  match tree.readText path with
  | .error fault => .error (.unreadable fault)
  | .ok text =>
    match parse text with
    | none => .error .notConfig
    | some config => .ok config

/-- The configuration of the project at `root`, if it has one that can be read. -/
def near (tree : FileTree) (root : Path) : Option Config :=
  (read tree (root.join fileName)).toOption

def defaultFormat (config : Config) : Option String :=
  config.query.bind (·.defaultFormat)

def scanOptions (config : Config) (options : Graph.ScanOptions) : Graph.ScanOptions where
  isParallel := (config.scan.bind (·.isParallel)).getD options.isParallel
  aliasFile := (config.scan.bind (·.aliasFile)).getD options.aliasFile

end Config

end FileGraph
