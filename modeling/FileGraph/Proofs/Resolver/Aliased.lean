import FileGraph.Proofs.FileTree.Passes
import FileGraph.Proofs.Resolver

/-! # Targets under an alias

An alias stands in a target for whole segments. What it makes of the target is read from the root of
the project, so that the file in which the target is written does not matter.

* `Alias.Matches`: a target lies under the stem of an alias.
* `Alias.Rewrites`: what an alias makes of a target.
* `AliasTable.rewrite?_eq_some_iff`: the first alias that matches is the one that counts.
* `Resolver.path?_aliased`: what a target leads to under an alias, and without one.
-/

namespace FileGraph

open FileGraph.Resolver (IsFirst)

namespace Alias

variable {a : Alias} {target text : String} {rest : List Char}

/-- A target is the stem of an alias, or goes on behind it with a new segment. -/
def Matches (a : Alias) (target : String) : Prop :=
  target = a.stem ∨ ∃ rest, target = a.stem ++ rest ∧
    (a.stem.toList.getLast? = some '/' ∨ rest.toList.head? = some '/')

/-- A text is the folder of an alias, followed by what is left of a target behind the stem and the
slashes that come next. Behind an empty folder the text begins with a slash, and so is no longer read
from the project. -/
def Rewrites (a : Alias) (target text : String) : Prop :=
  ∃ slashes rest, target = a.stem ++ slashes ++ rest ∧ (∀ c ∈ slashes.toList, c = '/') ∧
    rest.toList.head? ≠ some '/' ∧ text = if rest = "" then a.folder else a.folder ++ "/" ++ rest

theorem rest?_eq_some_iff : a.rest? target.toList = some rest ↔
    target = a.stem ++ String.ofList rest ∧
      (rest = [] ∨ rest.head? = some '/' ∨ a.stem.toList.getLast? = some '/') := by
  have shape : ∀ own, Text.after? a.stem.toList target.toList = some own ↔
      target = a.stem ++ String.ofList own := by
    intro own
    rw [Text.after?_eq_some_iff, ← String.toList_inj, String.toList_append, String.toList_ofList]
  rw [rest?, ← shape rest]
  cases Text.after? a.stem.toList target.toList with
  | none => simp
  | some own =>
    dsimp only
    split
    next bound =>
      constructor
      · rintro ⟨⟩
        exact ⟨rfl, bound⟩
      · exact And.left
    next free =>
      constructor
      · rintro ⟨⟩
      · rintro ⟨⟨⟩, bound⟩
        exact absurd bound free

theorem matches_iff : a.Matches target ↔ ∃ rest, a.rest? target.toList = some rest := by
  simp only [rest?_eq_some_iff]
  constructor
  · rintro (rfl | ⟨rest, rfl, bound⟩)
    · exact ⟨[], by simp, .inl rfl⟩
    · exact ⟨rest.toList, by simp, .inr bound.symm⟩
  · rintro ⟨rest, rfl, rfl | bound⟩
    · exact .inl (by simp)
    · exact .inr ⟨String.ofList rest, rfl, by simpa using bound.symm⟩

instance (a : Alias) (target : String) : Decidable (a.Matches target) :=
  decidable_of_iff _ (Option.isSome_iff_exists.trans matches_iff.symm)

theorem under_eq (a : Alias) (rest : List Char) : a.under rest =
    if String.ofList (rest.dropWhile (· == '/')) = "" then a.folder
    else a.folder ++ "/" ++ String.ofList (rest.dropWhile (· == '/')) := by
  unfold under
  cases rest.dropWhile (· == '/') with
  | nil => rfl
  | cons c later => rw [if_neg (by simp)]

theorem dropWhile_slashes {slashes left : List Char} (isSlash : ∀ c ∈ slashes, c = '/')
    (stops : left.head? ≠ some '/') : (slashes ++ left).dropWhile (· == '/') = left := by
  rw [List.dropWhile_append_of_pos (by simpa using isSlash)]
  cases left with
  | nil => rfl
  | cons c later => exact List.dropWhile_cons_of_neg (by simpa using stops)

/-- There is one way to part slashes from what follows them. -/
theorem rewrites_iff : a.Rewrites (a.stem ++ String.ofList rest) text ↔ a.under rest = text := by
  rw [under_eq]
  constructor
  · rintro ⟨slashes, left, shape, isSlash, stops, rfl⟩
    rw [String.append_assoc, String.append_right_inj] at shape
    have whole : rest = slashes.toList ++ left.toList := by
      simpa using congrArg String.toList shape
    rw [whole, dropWhile_slashes isSlash stops, String.ofList_toList]
  · rintro rfl
    refine ⟨String.ofList (rest.takeWhile (· == '/')), String.ofList (rest.dropWhile (· == '/')),
      ?_, fun c member => ?_, fun slash => ?_, rfl⟩
    · rw [String.append_assoc, ← String.ofList_append, List.takeWhile_append_dropWhile]
    · rw [String.toList_ofList] at member
      have slash := List.mem_takeWhile_imp member
      exact beq_iff_eq.1 slash
    · rw [String.toList_ofList] at slash
      have stops := List.head?_dropWhile_not (· == '/') rest
      rw [slash] at stops
      cases stops

end Alias

namespace AliasTable

variable {table : AliasTable} {target text : String}

theorem map_under_eq_some_iff {a : Alias} : (a.rest? target.toList).map a.under = some text ↔
    a.Matches target ∧ a.Rewrites target text := by
  rw [Option.map_eq_some_iff, Alias.matches_iff]
  constructor
  · rintro ⟨rest, own, rewritten⟩
    refine ⟨⟨rest, own⟩, ?_⟩
    rw [(Alias.rest?_eq_some_iff.1 own).1]
    exact Alias.rewrites_iff.2 rewritten
  · rintro ⟨⟨rest, own⟩, rewrites⟩
    refine ⟨rest, own, ?_⟩
    rw [(Alias.rest?_eq_some_iff.1 own).1] at rewrites
    exact Alias.rewrites_iff.1 rewrites

theorem map_under_eq_none_iff {a : Alias} : (a.rest? target.toList).map a.under = none ↔
    ¬ a.Matches target := by
  rw [Option.map_eq_none_iff, Alias.matches_iff, ← Option.isSome_iff_exists,
    Option.not_isSome_iff_eq_none]

theorem rewrite?_eq_some_iff : table.rewrite? target = some text ↔
    ∃ a, IsFirst (·.Matches target) table a ∧ a.Rewrites target text := by
  simp only [rewrite?, List.findSome?_eq_some_iff, map_under_eq_some_iff, map_under_eq_none_iff,
    IsFirst]
  constructor
  · rintro ⟨before, a, after, shape, ⟨own, rewrites⟩, others⟩
    exact ⟨a, ⟨before, after, shape, own, others⟩, rewrites⟩
  · rintro ⟨a, ⟨before, after, shape, own, others⟩, rewrites⟩
    exact ⟨before, a, after, shape, ⟨own, rewrites⟩, others⟩

theorem eq_of_rewrites {a : Alias} {other : String} (first : IsFirst (·.Matches target) table a)
    (rewrites : a.Rewrites target text) (stands : table.rewrite? target = some other) :
    text = other :=
  Option.some.inj ((rewrite?_eq_some_iff.2 ⟨a, first, rewrites⟩).symm.trans stands)

theorem rewrite?_eq_none_iff : table.rewrite? target = none ↔ ∀ a ∈ table, ¬ a.Matches target := by
  rw [rewrite?, List.findSome?_eq_none_iff]
  exact forall₂_congr fun a _ => map_under_eq_none_iff

end AliasTable

namespace Resolver

variable {r : Resolver} {tree : FileTree} {file : SourceFile} {target text : String}

/-! ## Targets of scripts -/

def IsScript (file : SourceFile) : Prop :=
  file.language = .typeScript ∨ file.language = .javaScript

def scriptPaths (base : Path) : List Path :=
  [base.withSuffix ".ts", base.join "index.ts", base.withSuffix ".tsx", base.join "index.tsx",
    base.withSuffix ".js", base.join "index.js", base.withSuffix ".jsx", base.join "index.jsx", base]

theorem probes_eq (script : IsScript file) (base : Path) :
    probes file.language base = scriptPaths base := by
  obtain typeScript | javaScript := script
  · rw [typeScript]
    rfl
  · rw [javaScript]
    rfl

/-- Under an alias it does not matter in which script a target is written. -/
theorem path?_of_rewrite? (script : IsScript file)
    (rewritten : r.aliases.rewrite? target = some text) :
    r.path? tree file target = firstFile? tree (scriptPaths (r.root.toPath.join text)) := by
  rw [path?_script script, scriptPath?, rewritten]
  exact congrArg (firstFile? tree) (probes_eq script _)

/-- A target that an alias matches leads to the first file that is tried for what the first such
alias makes of it, and to nothing if there is no such file, whatever the other aliases and wherever
the target is written. If no alias matches, only a target that begins with a dot or a slash leads
anywhere. -/
theorem path?_aliased (root : Path) (aliases : AliasTable) (ids : List String) (tree : FileTree)
    (target : String) :
    ((∃ a ∈ aliases, a.Matches target) →
      (∃ a text, IsFirst (·.Matches target) aliases a ∧ a.Rewrites target text ∧
        ∀ file, IsScript file →
          (∀ path, (ofProject root aliases ids).path? tree file target = some path ↔
            IsFirst (tree.isFile · = true) (scriptPaths (root.normalize.toPath.join text)) path) ∧
          ((∀ path ∈ scriptPaths (root.normalize.toPath.join text), tree.isFile path = false) →
            (ofProject root aliases ids).path? tree file target = none)) ∧
      ∀ file other, IsScript file → IsScript other →
        (ofProject root aliases ids).path? tree file target =
          (ofProject root aliases ids).path? tree other target) ∧
    ((∀ a ∈ aliases, ¬ a.Matches target) → target.toList.head? ≠ some '.' →
      target.toList.head? ≠ some '/' →
      ∀ file, IsScript file → (ofProject root aliases ids).path? tree file target = none) := by
  constructor
  · rintro ⟨known, member, own⟩
    -- The table is asked without the file, and what it answers is all that the search depends on.
    cases rewritten : aliases.rewrite? target with
    | none => exact absurd own (AliasTable.rewrite?_eq_none_iff.1 rewritten known member)
    | some text =>
      have led : ∀ file, IsScript file → (ofProject root aliases ids).path? tree file target =
          firstFile? tree (scriptPaths (root.normalize.toPath.join text)) :=
        fun file script => path?_of_rewrite? script rewritten
      obtain ⟨a, first, rewrites⟩ := AliasTable.rewrite?_eq_some_iff.1 rewritten
      refine ⟨⟨a, text, first, rewrites, fun file script => ?_⟩, fun file other script script' => ?_⟩
      · rw [led file script]
        refine ⟨fun path => firstFile?_eq_some_iff, fun silent => List.find?_eq_none.2 ?_⟩
        exact fun path tried => Bool.eq_false_iff.1 (silent path tried)
      · rw [led file script, led other script']
  · intro unmatched dotless slashless file script
    have unaliased : aliases.rewrite? target = none := AliasTable.rewrite?_eq_none_iff.2 unmatched
    rw [path?_script script, scriptPath?, ofProject, unaliased]
    exact if_neg fun relative => relative.elim dotless slashless

/-! ## A project whose aliases overlap -/

namespace Aliased

/-- Files under the folders of two aliases, and one that lies behind the folder of a file as an
aliased target does. -/
def overlappingTree : FileTree :=
  .single [
    ("a", .folder [("@", .folder [("x.ts", .file .empty)]), ("main.ts", .file .empty)]),
    ("b.js", .file .empty),
    ("lib", .folder [("y", .folder [("index.ts", .file .empty)])]),
    ("src", .folder [("x.ts", .file .empty), ("y.ts", .file .empty)])]

theorem linkFree_overlappingTree : FileTree.LinkFree overlappingTree.top := by
  have file := FileTree.linkFree_file .empty .plain
  have single : ∀ name, FileTree.LinkFree (.folder [(name, .file .empty)]) := fun name =>
    FileTree.linkFree_folder (List.forall_mem_singleton.2 file)
  refine FileTree.linkFree_folder (List.forall_mem_singleton.2 (FileTree.linkFree_folder ?_))
  refine List.forall_mem_cons.2 ⟨?_, List.forall_mem_cons.2 ⟨file, List.forall_mem_cons.2 ⟨?_,
    List.forall_mem_singleton.2 ?_⟩⟩⟩
  · exact FileTree.linkFree_folder
      (List.forall_mem_cons.2 ⟨single "x.ts", List.forall_mem_singleton.2 file⟩)
  · exact FileTree.linkFree_folder (List.forall_mem_singleton.2 (single "index.ts"))
  · exact FileTree.linkFree_folder (List.forall_mem_cons.2 ⟨file, List.forall_mem_singleton.2 file⟩)

/-- Whatever the first alias matches, the second one matches too. -/
def overlapping : AliasTable :=
  [⟨"@/", "lib"⟩, ⟨"@", "src"⟩]

def innerFile : SourceFile :=
  ⟨⟨"/p/a/main.ts"⟩, "a/main.ts", "", .typeScript⟩

def outerFile : SourceFile :=
  ⟨⟨"/p/b.js"⟩, "b.js", "", .javaScript⟩

end Aliased

open Aliased

/-- Of two aliases that match the first one counts, even where nothing is found under it but something
would be under the other one or behind the folder of the file; and no alias matches a part of a
segment. -/
theorem path?_aliased_overlapping :
    let r := ofProject ⟨"/q/../p"⟩ overlapping []
    (r.path? overlappingTree innerFile "@//y" = some ⟨"/p/lib/y/index.ts"⟩ ∧
      r.path? overlappingTree outerFile "@//y" = some ⟨"/p/lib/y/index.ts"⟩) ∧
    (overlappingTree.isFile ⟨"/p/src/x.ts"⟩ = true ∧ overlappingTree.isFile ⟨"/p/a/@/x.ts"⟩ = true ∧
      r.path? overlappingTree innerFile "@/x" = none) ∧
    r.path? overlappingTree innerFile "@x" = none := by
  intro r
  have isFile {path : Path} (plain : FileTree.IsPlain path) :=
    linkFree_overlappingTree.isFile_eq plain
  have script : IsScript innerFile := .inl rfl
  have aliased := path?_aliased ⟨"/q/../p"⟩ overlapping [] overlappingTree
  refine ⟨?_, ⟨?_, ?_, ?_⟩, (aliased "@x").2 (by decide) (by decide) (by decide) innerFile script⟩
  · obtain ⟨⟨a, text, first, rewrites, led⟩, alike⟩ := (aliased "@//y").1 (by decide)
    have stands : overlapping.rewrite? "@//y" = some "lib/y" := by decide
    obtain rfl := AliasTable.eq_of_rewrites first rewrites stands
    have found : r.path? overlappingTree innerFile "@//y" = some ⟨"/p/lib/y/index.ts"⟩ := by
      refine ((led innerFile script).1 _).2
        ⟨[⟨"/p/lib/y.ts"⟩], _, rfl, ?_, List.forall_mem_singleton.2 ?_⟩
      · exact (isFile (by decide)).trans (by decide)
      · exact Bool.eq_false_iff.1 ((isFile (by decide)).trans (by decide))
    exact ⟨found, (alike outerFile innerFile (.inr rfl) script).trans found⟩
  · exact (isFile (by decide)).trans (by decide)
  · exact (isFile (by decide)).trans (by decide)
  · obtain ⟨⟨a, text, first, rewrites, led⟩, -⟩ := (aliased "@/x").1 (by decide)
    have stands : overlapping.rewrite? "@/x" = some "lib/x" := by decide
    obtain rfl := AliasTable.eq_of_rewrites first rewrites stands
    have plain : ∀ path ∈ scriptPaths ⟨"/p/lib/x"⟩, FileTree.IsPlain path := by decide
    have silent : ∀ path ∈ scriptPaths ⟨"/p/lib/x"⟩, overlappingTree.isFile path = false := by
      intro path tried
      rw [isFile (plain path tried)]
      revert path
      decide
    exact (led innerFile script).2 silent

end Resolver

end FileGraph
