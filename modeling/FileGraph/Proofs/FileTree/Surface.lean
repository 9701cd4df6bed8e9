import FileGraph.Proofs.FileTree.Write

/-! # What a written file leaves as it is

* `Entry.surface`: what stands at a place, whatever is inside a folder.
* `Entry.SameOutline`: the same things stand at the same places, whatever is inside the files.
* `FileTree.surface_fill`: writing a file changes what stands at its place, and nothing else.
* `FileTree.walk_eq_of_sameOutline`: paths do not look into files.
* `FileTree.readText_overwritten`, `FileTree.lookup_overwritten`: what is read from other files and
  found in folders when a file is written over.
-/

namespace FileGraph

namespace Entry

/-- An entry without what is inside a folder. -/
def surface : Entry → Entry
  | folder _ => folder []
  | entry => entry

/-- An entry without what is inside a folder or a file. -/
def outline : Entry → Entry
  | folder _ => folder []
  | file _ mode => file .empty mode
  | entry => entry

theorem alike_of_surface_eq {entry entry' : Entry} (same : entry.surface = entry'.surface) :
    Alike entry entry' := by
  cases entry <;> cases entry' <;> cases same <;> first | exact .refl _ | exact .folders _ _

theorem outline_surface (entry : Entry) : entry.surface.outline = entry.outline := by
  cases entry <;> rfl

variable {entry new : Entry} {names other later : List String} {name : String}

theorem find?_insert_of_apart (above : ¬ other <+: names) (below : ¬ names <+: other) :
    (entry.insert names new).find? other = entry.find? other := by
  induction names generalizing entry other with
  | nil => exact absurd List.nil_prefix below
  | cons step names ih =>
    cases other with
    | nil => exact absurd List.nil_prefix above
    | cons first later =>
      rw [insert, find?, child?, find?, child?, entries]
      by_cases same : first = step
      · subst same
        rw [List.cons_prefix_cons] at above below
        rw [Text.Keyed.lookup_put, Option.bind_some, child?, ih (by simpa using above)
          (by simpa using below)]
        cases entry.entries.lookup first with
        | some child => rfl
        | none =>
          cases later with
          | nil => exact absurd ⟨rfl, List.nil_prefix⟩ above
          | cons next later => rfl
      · rw [Text.Keyed.lookup_put_of_ne _ _ same]
        rfl

theorem find?_below_eq_none (free : FileTree.IsFree entry names) :
    entry.find? (names ++ name :: later) = none := by
  rw [find?_append]
  cases standing : entry.find? names with
  | none => rfl
  | some found =>
    obtain ⟨bytes, mode, rfl⟩ := free found standing
    rfl

theorem surface_insert {bytes : ByteArray} {mode : Mode} {entries : List (String × Entry)}
    (standing : entry.find? names = some (.folder entries))
    (free : FileTree.IsFree entry (names ++ [name])) (apart : other ≠ names ++ [name]) :
    ((entry.insert (names ++ [name]) (.file bytes mode)).find? other).map surface =
      (entry.find? other).map surface := by
  by_cases above : other <+: names ++ [name]
  · -- `other` is the folder of the file or one above it, before as after.
    obtain above := (List.prefix_concat_iff.1 above).resolve_left apart
    obtain ⟨more, rfl⟩ := above
    obtain ⟨inner, held⟩ := exists_folder_of_find?_append standing
    have made := find?_insert_self entry (other ++ (more ++ [name])) (.file bytes mode)
    obtain ⟨step, steps, split⟩ := List.exists_cons_of_ne_nil (List.append_ne_nil_of_right_ne_nil
      more (List.cons_ne_nil name []))
    rw [split] at made
    obtain ⟨inner', held'⟩ := exists_folder_of_below made
    rw [List.append_assoc, split, held, held']
    rfl
  · by_cases below : names ++ [name] <+: other
    · obtain ⟨more, rfl⟩ := below
      cases more with
      | nil => exact absurd (List.append_nil _) apart
      | cons step steps =>
        have free' : FileTree.IsFree (entry.insert (names ++ [name]) (.file bytes mode))
            (names ++ [name]) := by
          intro found held
          exact ⟨bytes, mode, Option.some.inj (held.symm.trans (find?_insert_self _ _ _))⟩
        rw [find?_below_eq_none free, find?_below_eq_none free']
    · rw [find?_insert_of_apart above below]

/-! ## Entries of one outline -/

/-- The same things stand at the same places in two entries, whatever the bytes in their files. -/
def SameOutline (top top' : Entry) : Prop :=
  ∀ location, (top.find? location).map outline = (top'.find? location).map outline

namespace SameOutline

variable {top top' : Entry} {location : List String} (same : SameOutline top top')

include same

theorem missing (missing : top.find? location = none) : top'.find? location = none := by
  simpa [missing] using (same location).symm

theorem exists_folder {entries : List (String × Entry)}
    (standing : top.find? location = some (.folder entries)) :
    ∃ entries', top'.find? location = some (.folder entries') := by
  obtain ⟨entry, standing', outlined⟩ :=
    Option.map_eq_some_iff.1 ((same location).symm.trans (congrArg _ standing))
  cases entry with
  | folder entries' => exact ⟨entries', standing'⟩
  | file bytes mode => cases outlined
  | link target => cases outlined

theorem exists_file {bytes : ByteArray} {mode : Mode}
    (standing : top.find? location = some (.file bytes mode)) :
    ∃ bytes', top'.find? location = some (.file bytes' mode) := by
  obtain ⟨entry, standing', outlined⟩ :=
    Option.map_eq_some_iff.1 ((same location).symm.trans (congrArg _ standing))
  cases entry with
  | folder entries => cases outlined
  | file bytes' mode' =>
    cases outlined
    exact ⟨bytes', standing'⟩
  | link target => cases outlined

theorem link {target : String} (standing : top.find? location = some (.link target)) :
    top'.find? location = some (.link target) := by
  obtain ⟨entry, standing', outlined⟩ :=
    Option.map_eq_some_iff.1 ((same location).symm.trans (congrArg _ standing))
  cases entry with
  | folder entries => cases outlined
  | file bytes mode => cases outlined
  | link target' =>
    cases outlined
    exact standing'

end SameOutline

end Entry

namespace FileTree

variable {tree tree' : FileTree} {path : Path} {location other : Location}

theorem surface_fill (bytes : ByteArray) (hasHere : tree.HasHere)
    (writable : tree.writable path = .ok location) (apart : other ≠ location) :
    ((tree.fill location bytes).top.find? other).map Entry.surface =
      (tree.top.find? other).map Entry.surface := by
  obtain ⟨-, -, leads, noFolder, -⟩ := writable_eq_ok_iff.1 writable
  obtain ⟨entries, standing⟩ := hasHere
  obtain ⟨inner, origin⟩ := find?_origin standing path.isAbsolute
  cases leads.lands origin with
  | folder held => exact absurd held (noFolder _)
  | free held free => exact Entry.surface_insert held free apart

theorem sameOutline_fill (bytes : ByteArray) (hasHere : tree.HasHere)
    (writable : tree.writable path = .ok location) {old : ByteArray} {mode : Mode}
    (standing : tree.top.find? location = some (.file old mode)) :
    tree.top.SameOutline (tree.fill location bytes).top := by
  have there : tree.modeAt location = mode := by rw [modeAt, standing]
  intro other
  by_cases same : other = location
  · subst same
    rw [standing, fill, there, place, Entry.find?_insert_self]
    rfl
  · have surface := surface_fill bytes hasHere writable same
    have outlined := congrArg (Option.map Entry.outline) surface
    simpa only [Option.map_map, Function.comp_def, Entry.outline_surface] using outlined.symm

/-! ## Trees of one outline -/

theorem walk_eq_of_sameOutline {top top' : Entry} (same : top.SameOutline top') (links : Nat)
    (here : Location) (steps : List String) :
    walk top links here steps = walk top' links here steps := by
  fun_induction walk top links here steps with
  | case1 => rw [walk]
  | case2 links here rest ih => rw [walk, if_pos rfl, ih]
  | case3 links here rest ne_here ih => rw [walk, if_neg ne_here, if_pos rfl, ih]
  | case4 links here step rest ne_here ne_up long =>
    rw [walk, if_neg ne_here, if_neg ne_up, if_pos long]
  | case5 links here step ne_here ne_up short missing =>
    rw [walk, if_neg ne_here, if_neg ne_up, if_neg short, same.missing missing]
    rfl
  | case6 links here step rest ne_here ne_up short missing further =>
    rw [walk, if_neg ne_here, if_neg ne_up, if_neg short, same.missing missing]
    exact (if_neg further).symm
  | case7 links here step rest ne_here ne_up short entries standing ih =>
    obtain ⟨entries', standing'⟩ := same.exists_folder standing
    rw [walk, if_neg ne_here, if_neg ne_up, if_neg short, standing', ih]
  | case8 links here step ne_here ne_up short bytes mode standing =>
    obtain ⟨bytes', standing'⟩ := same.exists_file standing
    rw [walk, if_neg ne_here, if_neg ne_up, if_neg short, standing']
    rfl
  | case9 links here step rest ne_here ne_up short bytes mode standing further =>
    obtain ⟨bytes', standing'⟩ := same.exists_file standing
    rw [walk, if_neg ne_here, if_neg ne_up, if_neg short, standing']
    exact (if_neg further).symm
  | case10 here step rest ne_here ne_up short target standing =>
    rw [walk, if_neg ne_here, if_neg ne_up, if_neg short, same.link standing]
  | case11 here step rest ne_here ne_up short target standing links ih =>
    rw [walk, if_neg ne_here, if_neg ne_up, if_neg short, same.link standing]
    exact ih

theorem visited_eq_of_sameOutline {top top' : Entry} (same : top.SameOutline top') (links : Nat)
    (here : Location) (steps : List String) :
    visited top links here steps = visited top' links here steps := by
  fun_induction visited top links here steps with
  | case1 => rw [visited]
  | case2 links here rest ih => rw [visited, if_pos rfl, ih]
  | case3 links here rest ne_here ih => rw [visited, if_neg ne_here, if_pos rfl, ih]
  | case4 links here step rest ne_here ne_up further behind =>
    rw [visited, if_neg ne_here, if_neg ne_up]
    cases standing : top.find? (here ++ [step]) with
    | none => rw [same.missing standing]
    | some entry =>
      cases entry with
      | folder entries =>
        obtain ⟨entries', standing'⟩ := same.exists_folder standing
        rw [standing', further]
      | file bytes mode =>
        obtain ⟨bytes', standing'⟩ := same.exists_file standing
        rw [standing']
      | link target =>
        rw [same.link standing]
        cases links with
        | zero => rfl
        | succ links => exact congrArg _ (behind target)

section SameOutline

variable (same : tree.top.SameOutline tree'.top) (here : tree.here = tree'.here)

include same here

theorem locate_eq_of_sameOutline (path : Path) : tree.locate path = tree'.locate path := by
  rw [locate, locate, origin, origin, here, walk_eq_of_sameOutline same]

theorem canonicalize_eq_of_sameOutline (path : Path) :
    tree.canonicalize path = tree'.canonicalize path := by
  rw [canonicalize, canonicalize, locate_eq_of_sameOutline same here, origin, origin, here,
    visited_eq_of_sameOutline same]

theorem isFile_eq_of_sameOutline (path : Path) : tree.isFile path = tree'.isFile path := by
  unfold isFile lookup
  rw [locate_eq_of_sameOutline same here path]
  cases tree'.locate path with
  | error fault => rfl
  | ok location =>
    simp only [bind, Except.bind]
    cases standing : tree.top.find? location with
    | none => rw [same.missing standing]
    | some entry =>
      cases entry with
      | folder entries =>
        obtain ⟨entries', standing'⟩ := same.exists_folder standing
        rw [standing']
      | file bytes mode =>
        obtain ⟨bytes', standing'⟩ := same.exists_file standing
        rw [standing']
      | link target => rw [same.link standing]

end SameOutline

/-! ## Writing over a file -/

section Overwrite

variable (new : ByteArray) {old : ByteArray} {mode : Mode} (hasHere : tree.HasHere)
  (writable : tree.writable path = .ok location)
  (standing : tree.top.find? location = some (.file old mode))

include hasHere writable standing

/-- A path that does not lead to the file that is written gives the same text. -/
theorem readText_overwritten {path' : Path}
    (apart : tree.lookup path' ≠ .ok (location, .file old mode)) :
    (tree.fill location new).readText path' = tree.readText path' := by
  have same := sameOutline_fill new hasHere writable standing
  unfold readText
  rw [lookup] at apart
  rw [lookup, lookup, ← locate_eq_of_sameOutline same rfl]
  cases located : tree.locate path' with
  | error fault => rfl
  | ok location' =>
    simp only [located, bind, Except.bind] at apart ⊢
    by_cases here : location' = location
    · subst here
      rw [standing] at apart
      exact absurd rfl apart
    · -- Elsewhere only the file that was written is another one, and it is seen only from its folder.
      have surface := surface_fill new hasHere writable here
      cases held : tree.top.find? location' with
      | none =>
        rw [held, Option.map_none, Option.map_eq_none_iff] at surface
        rw [surface]
      | some entry =>
        rw [held, Option.map_some] at surface
        obtain ⟨entry', held', same⟩ := Option.map_eq_some_iff.1 surface
        rw [held']
        cases Entry.alike_of_surface_eq same with
        | refl => rfl
        | folders => rfl

/-- What is inside a folder stays if the file that is written is not inside. -/
theorem lookup_overwritten {path' : Path} {place : Location} {entries : List (String × Entry)}
    (led : tree.lookup path' = .ok (place, .folder entries)) (outside : ¬ place <+: location) :
    (tree.fill location new).lookup path' = .ok (place, .folder entries) := by
  have same := sameOutline_fill new hasHere writable standing
  obtain ⟨checked, leads, held⟩ := lookup_eq_ok_iff.1 led
  refine lookup_eq_ok_iff.2 ⟨checked, .of_walk ?_, ?_⟩
  · rw [← walk_eq_of_sameOutline same]
    exact leads.walk_eq
  · have below : ¬ location <+: place := by
      rintro ⟨more, rfl⟩
      cases more with
      | nil => exact outside (by simp)
      | cons name names =>
        have free : IsFree tree.top location := fun found given =>
          ⟨old, mode, Option.some.inj (given.symm.trans standing)⟩
        rw [Entry.find?_below_eq_none free] at held
        cases held
    exact (Entry.find?_insert_of_apart outside below).trans held

end Overwrite

end FileTree

end FileGraph
