import FileGraph.Run

/-! # The program

Reads the folders and files that a command line names, and the working folder, into a `FileTree`,
carries the command out on it, prints what it leads to, and writes the file that a scan stores its
graph in. What lies outside these folders is taken not to be there.
-/

namespace FileGraph.Program

open CommandLine

/-- The mode of what is on the disk. Whether it can be written shows when it is. -/
def modeOf (type : IO.FS.FileType) (isReadable : Bool) : Mode :=
  { Mode.plain with isRegular := type == .file, isReadable := isReadable }

/-- What is read at a path that leads to no folder. -/
def readFile (path : String) (type : IO.FS.FileType) : IO Entry := do
  try return .file (← IO.FS.readBinFile path) (modeOf type true)
  catch _ => return .file .empty (modeOf type false)

/-- What stands under a name on the disk. A link is read as a link to where it leads; one that leads
nowhere is left out, and so are devices. -/
partial def readEntry (found : IO.FS.DirEntry) : IO (Option (String × Entry)) := do
  let named (entry : Entry) : Option (String × Entry) := some (found.fileName, entry)
  match (← found.path.symlinkMetadata).type with
  | .dir =>
    let inner ← (← found.path.readDir).toList.filterMapM readEntry
    return named (.folder inner)
  | .file => return named (← readFile found.path.toString .file)
  | .symlink =>
    try return named (.link (← IO.FS.realPath found.path).toString)
    catch _ => return none
  | .other => return none

/-- A tree with what is on the disk at a path. -/
def readPath (tree : FileTree) (path : String) : IO FileTree := do
  try
    let real ← IO.FS.realPath path
    let location := (Path.mk real.toString).normalize.names
    if ← real.isDir then
      let entries ← (← real.readDir).toList.filterMapM readEntry
      return tree.place location (.folder entries)
    else return tree.place location (← readFile real.toString (← real.metadata).type)
  catch _ => return tree

/-- A tree with what is on the disk at a path, but not what is in it, unless it is in the tree
already. -/
def seePath (tree : FileTree) (path : String) : IO FileTree := do
  try
    let real ← IO.FS.realPath path
    let location := (Path.mk real.toString).normalize.names
    if (tree.top.find? location).isSome then return tree
    else if ← real.isDir then return tree.place location (.folder [])
    else return tree.place location (.file .empty (modeOf (← real.metadata).type true))
  catch _ => return tree

def folderOf (path : String) : String :=
  let folder := ((Path.mk path).parent?.getD ⟨""⟩).text
  if folder.isEmpty then "." else folder

/-- The paths that a command reads. -/
def pathsOf : Command → List String
  | .scan source _ | .summary source _ | .query source _ _ =>
    source.path :: (source.config.toList ++ source.graph.toList)
  | .completions _ => []

/-- The file that a command writes, if it succeeds. -/
def targetOf : Command → Option String
  | .scan _ json => json
  | _ => none

def carryOut (invocation : Invocation) : IO UInt32 := do
  let here := (Path.mk (← IO.currentDir).toString).normalize.names
  let empty : FileTree := { top := (Entry.folder []).insert here (.folder []), here := here }
  let target := targetOf invocation.command
  let tree ← ("." :: pathsOf invocation.command).foldlM readPath empty
  let tree ← (target.toList.flatMap fun path => [folderOf path, path]).foldlM seePath tree
  let outcome := run tree invocation
  if outcome.exitCode = 0 then
    if let some path := target then
      if let .ok (_, .file bytes _) := outcome.tree.lookup ⟨path⟩ then
        IO.FS.writeBinFile path bytes
  IO.print outcome.output
  IO.eprint outcome.errors
  return UInt32.ofNat outcome.exitCode

end FileGraph.Program

/-- The program. Words that are no command line are answered by the exit code alone. -/
def main (words : List String) : IO UInt32 := do
  let named ← IO.getEnv FileGraph.CommandLine.pathVariable
  let environment := named.toList.map fun value => (FileGraph.CommandLine.pathVariable, value)
  match FileGraph.CommandLine.Invocation.parse environment words with
  | .error refusal => return UInt32.ofNat refusal.exitCode
  | .ok invocation => FileGraph.Program.carryOut invocation
