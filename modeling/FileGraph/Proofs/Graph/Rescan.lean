import FileGraph.Graph.Build
import FileGraph.Proofs.SourceFile

/-! # Scanning again

A scan reads the source files of a project and its alias document. Of all other files it only asks
whether they are there.

* `Resolver.path?_congr`, `Graph.assemble_congr`: where the same files are there, references lead to
  the same files and source files make up the same graph.
* `Graph.scan_overwritten`: the scan of a project when a file outside of it is written over.
-/

namespace FileGraph

variable {tree tree' : FileTree}

namespace Resolver

variable (same : tree.isFile = tree'.isFile)

include same

theorem firstFile?_congr (paths : List Path) : firstFile? tree paths = firstFile? tree' paths := by
  rw [firstFile?, same, firstFile?]

theorem pythonModule?_congr (folder : Path) (names : List String) :
    pythonModule? tree folder names = pythonModule? tree' folder names := by
  induction names generalizing folder with
  | nil => rfl
  | cons name later ih => simp only [pythonModule?, same, ih]

theorem rustModule?_congr (folder : Path) (segments : List String) :
    rustModule? tree folder segments = rustModule? tree' folder segments := by
  induction segments generalizing folder with
  | nil => rfl
  | cons segment later ih => simp only [rustModule?, same, ih, firstFile?_congr same]

theorem path?_congr (r : Resolver) (file : SourceFile) (target : String) :
    r.path? tree file target = r.path? tree' file target := by
  have first := firstFile?_congr same
  have python := pythonModule?_congr same
  have rust := rustModule?_congr same
  have crate : r.crateFolder? tree = r.crateFolder? tree' := by
    funext folder
    simp only [crateFolder?, same]
  unfold path?
  split
  all_goals simp only [scriptPath?, goPath?, includePath?, pythonPath?, packagePath?, rustPath?,
    rustStart?, first, python, rust, crate]

end Resolver

theorem linksOfFile_congr (same : tree.isFile = tree'.isFile) (resolver : Resolver) :
    linksOfFile resolver tree = linksOfFile resolver tree' := by
  funext file
  simp only [linksOfFile, Resolver.resolve?, Resolver.path?_congr same]

/-! ## Writing over a file -/

namespace Graph

theorem assemble_congr (same : tree.isFile = tree'.isFile) : assemble tree = assemble tree' := by
  funext root aliases files
  simp only [assemble, linksOf, linksOfFile_congr same]

theorem scan_eq_ok_iff {options : ScanOptions} {root : Path} {g : Graph} :
    scan tree options root = .ok g ↔ ∃ place entries location files,
      tree.lookup root = .ok (place, .folder entries) ∧ tree.canonicalize root = .ok location ∧
      SourceFile.below tree location location.toPath (.folder entries) = .ok files ∧
      g = assemble tree location.toPath
        ((AliasTable.load tree location.toPath options.aliasFile).toOption.getD []) files := by
  unfold scan
  split
  next place entries led =>
    rw [led]
    cases canonical : tree.canonicalize root with
    | error fault => simp
    | ok location =>
      cases made : SourceFile.below tree location location.toPath (.folder entries) with
      | error e => simp [made, bind, Except.bind]
      | ok files => simp [made, bind, Except.bind, pure, Except.pure, eq_comm]
  next other =>
    refine iff_of_false nofun ?_
    rintro ⟨place, entries, location, files, led, -⟩
    exact other place entries led

section Overwrite

variable (new : ByteArray) {old : ByteArray} {mode : Mode} {path root : Path}
  {location place : Location} {entries : List (String × Entry)} (hasHere : tree.HasHere)
  (writable : tree.writable path = .ok location)
  (standing : tree.top.find? location = some (.file old mode))

include hasHere writable standing

theorem isFile_overwritten : (tree.fill location new).isFile = tree.isFile := by
  funext path'
  exact (FileTree.isFile_eq_of_sameOutline
    (FileTree.sameOutline_fill new hasHere writable standing) rfl path').symm

/-- The file that is written is neither part of the project nor its alias document. -/
theorem scan_overwritten {options : ScanOptions}
    (led : tree.lookup root = .ok (place, .folder entries)) (outside : ¬ place <+: location)
    (noAliases : tree.lookup (place.toPath.join options.aliasFile) ≠ .ok (location, .file old mode)) :
    scan (tree.fill location new) options root = scan tree options root := by
  have aliases : AliasTable.load (tree.fill location new) place.toPath options.aliasFile =
      AliasTable.load tree place.toPath options.aliasFile := by
    simp only [AliasTable.load, isFile_overwritten new hasHere writable standing,
      FileTree.readText_overwritten new hasHere writable standing noAliases]
  have led' := FileTree.lookup_overwritten new hasHere writable standing led outside
  have canonical := FileTree.canonicalize_eq_of_sameOutline
    (FileTree.sameOutline_fill new hasHere writable standing) rfl root
  have below := SourceFile.below_congr (show (tree.fill location new).isListed = tree.isListed from rfl)
  simp only [scan, led, led', ← canonical]
  cases found : tree.canonicalize root with
  | error fault => rfl
  | ok place' =>
    obtain rfl : place' = place := FileTree.canonicalize_eq_lookup found led
    simp only [aliases, below, assemble_congr (isFile_overwritten new hasHere writable standing)]

end Overwrite

end Graph

end FileGraph
