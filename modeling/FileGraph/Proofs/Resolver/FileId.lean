import FileGraph.Proofs.Path.Normal
import FileGraph.Proofs.Resolver

/-! # Which file of a project is at a path

A path is looked up as it is seen from the root of the project. Where that is no id, the first file of
the same name is taken for it.

* `Resolver.SeenAs`: the text under which a path is seen from a folder.
* `Resolver.IsBaseName`: a name behind the last slash of a text.
* `Resolver.Identifies`: the id that a path should get.
* `Resolver.idFor?_identifies`: that is the one it gets, and each file below the root gets its own.
-/

namespace FileGraph.Resolver

open FileGraph.Path (Component IsName Lexical)

variable {aliases : AliasTable} {ids : List String} {root path : Path} {name id text : String}
  {names : List String}

/-! ## Paths seen from a folder -/

/-- What a path says begins with what a folder says, once both are in normal form, and the text is
what is left, with slashes in between. -/
def SeenAs (folder path : Path) (text : String) : Prop :=
  ∃ rest, rest ≠ [] ∧
    path.normalize.toPath.components = folder.normalize.toPath.components ++ rest ∧
    text = "/".intercalate (rest.map Component.text)

theorem behind?_eq_some_iff {above whole rest : List Component} :
    Path.behind? above whole = some rest ↔ whole = above ++ rest := by
  constructor
  · intro behind
    induction above generalizing whole with
    | nil => exact Option.some.inj behind
    | cons first above ih =>
      cases whole with
      | nil => cases behind
      | cons own whole =>
        rw [Path.behind?] at behind
        split at behind
        next same => rw [same, ih behind, List.cons_append]
        next => cases behind
  · rintro rfl
    exact Path.behind?_append above rest

theorem relativeId?_eq_some_iff {above whole : List Component} :
    Path.relativeId? above whole = some text ↔
      ∃ rest, rest ≠ [] ∧ whole = above ++ rest ∧ text = "/".intercalate (rest.map Component.text) := by
  simp only [← behind?_eq_some_iff]
  rw [Path.relativeId?]
  cases behind : Path.behind? above whole with
  | none => simp
  | some rest =>
    cases rest with
    | nil => simp
    | cons first later => simp [eq_comm]

theorem seenAs_iff : SeenAs root path text ↔
    Path.relativeId? root.normalize.components path.normalize.components = some text := by
  rw [relativeId?_eq_some_iff, SeenAs, (Path.isProper_normalize path).components_toPath,
    (Path.isProper_normalize root).components_toPath]

/-! ## Names behind the last slash -/

/-- A text ends in a name, with nothing or a slash in front of it. -/
def IsBaseName (name text : String) : Prop :=
  '/' ∉ name.toList ∧ (text = name ∨ ∃ front, text = front ++ "/" ++ name)

theorem baseName_of_isBaseName (own : IsBaseName name text) : baseName text = name := by
  obtain ⟨slashless, rfl | ⟨front, rfl⟩⟩ := own
  · rw [baseName, Text.splitOn_eq, List.splitOn_eq_singleton slashless]
    simp
  · have shape : (front ++ "/" ++ name).toList = front.toList ++ '/' :: name.toList := by simp
    rw [baseName, shape, Text.splitOn_append_cons, Text.splitOn_eq '/' name.toList,
      List.splitOn_eq_singleton slashless, List.getLast?_concat]
    simp

theorem exists_isBaseName (text : String) : ∃ name, IsBaseName name text := by
  by_cases slash : '/' ∈ text.toList
  · obtain ⟨behind, front, shape, slashless⟩ := List.eq_append_cons_of_mem (List.mem_reverse.2 slash)
    refine ⟨String.ofList behind.reverse, by simpa using slashless, .inr ⟨String.ofList front.reverse, ?_⟩⟩
    rw [← String.toList_inj, ← List.reverse_inj, shape]
    simp
  · exact ⟨text, slash, .inl rfl⟩

theorem baseName_eq_iff : baseName text = name ↔ IsBaseName name text := by
  constructor
  · rintro rfl
    obtain ⟨name, own⟩ := exists_isBaseName text
    rwa [baseName_of_isBaseName own]
  · exact baseName_of_isBaseName

/-! ## The id of a path -/

/-- The id of a path: the one under which it is seen from the root, whatever other ids end in the
same name, and only if there is none the first one that ends in its name. -/
inductive Identifies (root : Path) (ids : List String) (path : Path) : String → Prop where
  | place {id : String} : id ∈ ids → SeenAs root path id → Identifies root ids path id
  | name {name id : String} : (∀ known ∈ ids, ¬ SeenAs root path known) →
      path.normalize.toPath.fileName? = some name → IsFirst (IsBaseName name) ids id →
      Identifies root ids path id

theorem fileName?_normalize (path : Path) :
    path.normalize.toPath.fileName? = path.normalize.names.getLast? := by
  have shape : ∃ front : List Component, path.normalize.components =
      front ++ path.normalize.names.map .name ∧ ∀ name, front.getLast? ≠ some (.name name) := by
    cases path.normalize with
    | rooted names => exact ⟨[.root], rfl, by simp⟩
    | loose climbs names =>
      refine ⟨List.replicate climbs .up, rfl, fun name last => ?_⟩
      cases List.eq_of_mem_replicate (List.mem_of_getLast? last)
  obtain ⟨front, whole, nameless⟩ := shape
  rw [Path.fileName?, (Path.isProper_normalize path).components_toPath, whole]
  obtain none | ⟨names, last, shape⟩ := List.eq_nil_or_concat' path.normalize.names
  · rw [none, List.map_nil, List.append_nil, List.getLast?_nil]
    split
    next name last => exact absurd last (nameless name)
    next => rfl
  · rw [shape, List.map_append, List.map_singleton, ← List.append_assoc, List.getLast?_concat,
      List.getLast?_concat]

theorem idFor?_eq_some_iff :
    (ofProject root aliases ids).idFor? path = some id ↔ Identifies root ids path id := by
  have kept : ∀ known, (Path.relativeId? root.normalize.components path.normalize.components).filter
      (ids.contains ·) = some known ↔ known ∈ ids ∧ SeenAs root path known := by
    intro known
    rw [Option.filter_eq_some_iff, seenAs_iff, List.contains_iff_mem, and_comm]
  have named : ∀ name, ids.find? (baseName · == name) = some id ↔ IsFirst (IsBaseName name) ids id :=
    fun name => find?_eq_some_iff_isFirst fun item => by rw [beq_iff_eq, baseName_eq_iff]
  rw [idFor?, ofProject]
  dsimp only
  -- A path has at most one text under which it is seen from the root, so looking that up is enough.
  cases own : (Path.relativeId? root.normalize.components path.normalize.components).filter
      (ids.contains ·) with
  | some known =>
    obtain ⟨member, seen⟩ := (kept known).1 own
    constructor
    · rintro ⟨⟩
      exact .place member seen
    · intro identifies
      cases identifies with
      | place member' seen' => rw [← own, (kept id).2 ⟨member', seen'⟩]
      | name unseen _ _ => exact absurd seen (unseen known member)
  | none =>
    have unseen : ∀ known ∈ ids, ¬ SeenAs root path known := by
      intro known member seen
      cases own.symm.trans ((kept known).2 ⟨member, seen⟩)
    dsimp only
    rw [Option.bind_eq_some_iff, ← fileName?_normalize]
    constructor
    · rintro ⟨name, last, found⟩
      exact .name unseen last ((named name).1 found)
    · intro identifies
      cases identifies with
      | place member seen => exact absurd seen (unseen id member)
      | name _ last first => exact ⟨_, last, (named _).2 first⟩

theorem Identifies.mem (identifies : Identifies root ids path id) : id ∈ ids := by
  cases identifies with
  | place member _ => exact member
  | name _ _ first => exact first.mem

/-- Below a folder a path is seen from there under its own names. -/
theorem seenAs_join (root : Path) (nonempty : names ≠ []) (isName : ∀ name ∈ names, IsName name) :
    SeenAs root (root.join ("/".intercalate names)) ("/".intercalate names) := by
  have proper : (Lexical.loose 0 names).IsProper := isName
  have own : (Path.mk ("/".intercalate names)).components = names.map .name :=
    proper.components_toPath
  refine ⟨names.map .name, by simpa using nonempty, ?_, ?_⟩
  · rw [(Path.isProper_normalize _).components_toPath, (Path.isProper_normalize _).components_toPath,
      Path.normalize_join, own, Lexical.components_foldl_push]
  · rw [List.map_map]
    exact congrArg _ (List.map_id names).symm

/-- A path gets the id under which it is seen from the root, if that is one, or else the first one
that ends in its name, and no other. What it gets is an id of the list; and a path that is read from
the root under an id gets this id, in whatever way the root is written. -/
theorem idFor?_identifies (root : Path) (aliases : AliasTable) (ids : List String) :
    (∀ path id, (ofProject root aliases ids).idFor? path = some id ↔ Identifies root ids path id) ∧
      (∀ path, ∀ id ∈ (ofProject root aliases ids).idFor? path, id ∈ ids) ∧
      ∀ names, names ≠ [] → (∀ name ∈ names, IsName name) → "/".intercalate names ∈ ids →
        (ofProject root aliases ids).idFor? (root.join ("/".intercalate names)) =
          some ("/".intercalate names) := by
  refine ⟨fun path id => idFor?_eq_some_iff, fun path id found => ?_, ?_⟩
  · exact (idFor?_eq_some_iff.1 found).mem
  · intro names nonempty isName member
    exact idFor?_eq_some_iff.2 (.place member (seenAs_join root nonempty isName))

/-- A path below the root, and one that leaves it, in a project with two files of that name. -/
example :
    let r := ofProject ⟨"./p/../q"⟩ [] ["lib/b.ts", "b.ts"]
    r.idFor? ⟨"q/a/../b.ts"⟩ = some "b.ts" ∧ r.idFor? ⟨"q/../b.ts"⟩ = some "lib/b.ts" := by
  decide

end FileGraph.Resolver
