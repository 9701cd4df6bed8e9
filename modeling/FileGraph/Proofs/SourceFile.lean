import FileGraph.SourceFile
import FileGraph.Proofs.FileTree.Passes
import FileGraph.Proofs.FileTree.Surface
import FileGraph.Proofs.Path.Parent
import FileGraph.Proofs.Text.ByteOrder
import Mathlib.Data.List.Nodup
import Mathlib.Data.List.Perm.Basic

/-! # Which files are source files

A walk goes through every folder in the order of its names and into each folder as it comes, so that a
folder `a` is done with before the file `a.ts`.  What it meets comes in the order of the lists of names
that lead there, and so do the source files.

* `Entry.Tidy`: in every folder the entries have different names, which can be written in paths.
* `Entry.mem_met_iff`: what is met below an entry is what is found there, ignored folders left out.
* `Entry.pairwise_met_ordered`: it is met in the order of names.
* `SourceFile.gather_eq_ok_iff`, `SourceFile.gather_of_closed`: how a walk ends.
* `SourceFile.collect_admissible`: which source files a project has, and in which order.
-/

namespace FileGraph

namespace Entry

/-- In every folder the entries have different names, which can be written in paths. -/
inductive Tidy : Entry → Prop where
  | file {bytes : ByteArray} {mode : Mode} : Tidy (.file bytes mode)
  | link {target : String} : Tidy (.link target)
  | folder {entries : List (String × Entry)} :
      (entries.map (·.1)).Nodup → (∀ entry ∈ entries, Path.IsName entry.1) →
      (∀ entry ∈ entries, Tidy entry.2) → Tidy (.folder entries)

variable {entry child seen : Entry} {entries : List (String × Entry)} {name : String}
  {names : List String}

theorem lookup_eq_some_iff_mem (nodup : (entries.map (·.1)).Nodup) :
    entries.lookup name = some child ↔ (name, child) ∈ entries := by
  induction entries with
  | nil => simp
  | cons first later ih =>
      obtain ⟨other, entry⟩ := first
      rw [List.map_cons, List.nodup_cons] at nodup
      rw [List.lookup_cons, List.mem_cons, Prod.mk.injEq]
      by_cases same : name = other
      · subst same
        have further : (name, child) ∉ later := fun member =>
          nodup.1 (List.mem_map_of_mem (f := (·.1)) member)
        simp [further, eq_comm]
      · have apart : (name == other) = false := by simpa using same
        simp [apart, same, ih nodup.2]

theorem Tidy.of_find? {found : Entry} (tidy : Tidy entry)
    (standing : entry.find? names = some found) : (∀ n ∈ names, Path.IsName n) ∧ Tidy found := by
  induction names generalizing entry with
  | nil => exact ⟨fun name member => absurd member List.not_mem_nil, Option.some.inj standing ▸ tidy⟩
  | cons first later ih =>
      obtain ⟨entries, rfl⟩ := exists_folder_of_find?_cons standing
      obtain ⟨child, held, deeper⟩ := Option.bind_eq_some_iff.1 standing
      cases tidy with
      | folder nodup named inner =>
          have member := (lookup_eq_some_iff_mem nodup).1 held
          obtain ⟨others, tidy⟩ := ih (inner _ member) deeper
          exact ⟨List.forall_mem_cons.2 ⟨named _ member, others⟩, tidy⟩

/-! ## What a walk meets -/

@[simp] theorem isFolder_surface (entry : Entry) : entry.surface.isFolder = entry.isFolder := by
  cases entry <;> rfl

theorem surface_eq_file_iff {bytes : ByteArray} {mode : Mode} :
    entry.surface = .file bytes mode ↔ entry = .file bytes mode := by
  cases entry <;> simp [surface]

theorem metIn_eq_flatMap (entries : List (String × Entry)) :
    metIn entries = entries.flatMap fun entry =>
      if entry.2.isEntered entry.1 then
        entry.2.met.map fun (names, found) => (entry.1 :: names, found)
      else [] := by
  induction entries with
  | nil => rw [metIn, List.flatMap_nil]
  | cons first later ih => rw [metIn, ih, List.flatMap_cons]

theorem mem_metIn_iff :
    (names, seen) ∈ metIn entries ↔
      ∃ name child later, (name, child) ∈ entries ∧ child.isEntered name = true ∧
        (later, seen) ∈ child.met ∧ names = name :: later := by
  simp only [metIn_eq_flatMap, List.mem_flatMap]
  constructor
  · rintro ⟨⟨name, child⟩, member, inside⟩
    split at inside
    next entered =>
      obtain ⟨⟨later, seen'⟩, held, same⟩ := List.mem_map.1 inside
      obtain ⟨rfl, rfl⟩ := Prod.mk.inj same
      exact ⟨name, child, later, member, entered, held, rfl⟩
    next => cases inside
  · rintro ⟨name, child, later, member, entered, held, rfl⟩
    refine ⟨(name, child), member, ?_⟩
    rw [if_pos entered]
    exact List.mem_map_of_mem (f := fun (names, found) => (name :: names, found)) held

/-- No folder on the way to something is ignored, and neither is that itself if it is a folder. -/
def Enters (names : List String) (found : Entry) : Prop :=
  ∀ folder ∈ if found.isFolder then names else names.dropLast, folder ∉ ignoredFolders

theorem isEntered_and_iff (standing : (child.find? names).map surface = some seen) :
    (child.isEntered name = true ∧ Enters names seen) ↔ Enters (name :: names) seen := by
  obtain ⟨found, held, rfl⟩ := Option.map_eq_some_iff.1 standing
  unfold Enters isEntered
  rw [isFolder_surface]
  cases names with
  | nil =>
      obtain rfl : child = found := Option.some.inj held
      cases child.isFolder <;> simp
  | cons next later =>
      obtain ⟨entries, rfl⟩ := exists_folder_of_find?_cons held
      cases found.isFolder <;> simp [isFolder]

/-- What a walk meets is found under its names, unless a folder on the way is ignored. -/
theorem mem_met_iff (tidy : Tidy entry) :
    (names, seen) ∈ entry.met ↔ (entry.find? names).map surface = some seen ∧ Enters names seen := by
  induction names generalizing entry with
  | nil =>
      have idle : Enters [] seen := by
        unfold Enters
        split <;> exact List.forall_mem_nil _
      cases entry with
      | file bytes mode => simp [met, find?, surface, idle, eq_comm]
      | link target => simp [met, find?, surface, idle, eq_comm]
      | folder entries =>
          have below : ([], seen) ∉ metIn entries := by simp [mem_metIn_iff]
          simp [met, find?, surface, idle, below, eq_comm]
  | cons name later ih =>
      cases tidy with
      | file => simp [met, find?, child?, Entry.entries]
      | link => simp [met, find?, child?, Entry.entries]
      | @folder entries nodup named inner =>
          -- Behind the first name a walk meets what it meets in the entry under that name.
          rw [met, List.mem_cons, or_iff_right (by simp), mem_metIn_iff]
          constructor
          · rintro ⟨first, child, rest, member, entered, inside, same⟩
            obtain ⟨rfl, rfl⟩ := List.cons.inj same
            obtain ⟨standing, enters⟩ := (ih (inner _ member)).1 inside
            refine ⟨?_, (isEntered_and_iff standing).1 ⟨entered, enters⟩⟩
            have held : (folder entries).child? name = some child :=
              (lookup_eq_some_iff_mem nodup).2 member
            rw [find?, held, Option.bind_some, standing]
          · rintro ⟨below, enters⟩
            obtain ⟨found, standing, rfl⟩ := Option.map_eq_some_iff.1 below
            obtain ⟨child, held, deeper⟩ := Option.bind_eq_some_iff.1 standing
            have member := (lookup_eq_some_iff_mem nodup).1 held
            have standing : (child.find? later).map surface = some found.surface := by
              rw [deeper, Option.map_some]
            obtain ⟨entered, enters⟩ := (isEntered_and_iff standing).2 enters
            exact ⟨name, child, later, member, entered,
              (ih (inner _ member)).2 ⟨standing, enters⟩, rfl⟩

theorem file_mem_met_iff (tidy : Tidy entry) {bytes : ByteArray} {mode : Mode} :
    (names, .file bytes mode) ∈ entry.met ↔ entry.find? names = some (.file bytes mode) ∧
      ∀ folder ∈ names.dropLast, folder ∉ ignoredFolders := by
  rw [mem_met_iff tidy, Option.map_eq_some_iff]
  simp only [surface_eq_file_iff, exists_eq_right]
  rfl

theorem folder_mem_met_iff (tidy : Tidy entry) :
    (∃ seen, (names, seen) ∈ entry.met ∧ seen.isFolder = true) ↔
      (∃ inner, entry.find? names = some (.folder inner)) ∧
        ∀ folder ∈ names, folder ∉ ignoredFolders := by
  simp only [mem_met_iff tidy]
  constructor
  · rintro ⟨seen, ⟨standing, enters⟩, folder⟩
    obtain ⟨found, held, rfl⟩ := Option.map_eq_some_iff.1 standing
    rw [Enters, if_pos folder] at enters
    cases found with
    | folder inner => exact ⟨⟨inner, held⟩, enters⟩
    | file bytes mode => cases folder
    | link target => cases folder
  · rintro ⟨⟨inner, standing⟩, free⟩
    exact ⟨.folder [], ⟨by rw [standing]; rfl, free⟩, rfl⟩

/-! ## Walking in the order of names -/

theorem orderedOf_eq_map (entries : List (String × Entry)) :
    orderedOf entries = entries.map fun entry => (entry.1, entry.2.ordered) := by
  induction entries with
  | nil => rw [orderedOf, List.map_nil]
  | cons first later ih => rw [orderedOf, ih, List.map_cons]

theorem ordered_folder (sorted : entries.Pairwise fun a b => a.1 ≤ b.1)
    (inner : ∀ entry ∈ entries, entry.2.ordered = entry.2) :
    (folder entries).ordered = folder entries := by
  have same : entries.map (fun entry => (entry.1, entry.2.ordered)) = entries := by
    rw [List.map_congr_left (fun entry given => by rw [inner entry given]), List.map_id']
  rw [ordered, orderedOf_eq_map, same, List.mergeSort_of_pairwise (by simpa using sorted)]

theorem isEntered_ordered (entry : Entry) : entry.ordered.isEntered name = entry.isEntered name := by
  cases entry with
  | file bytes mode => rw [ordered]
  | link target => rw [ordered]
  | folder entries =>
      rw [ordered]
      rfl

mutual

theorem met_ordered_perm : (entry : Entry) → entry.ordered.met.Perm entry.met
  | file bytes mode => by rw [ordered]
  | link target => by rw [ordered]
  | folder entries => by
      have sorted := (List.mergeSort_perm (orderedOf entries) fun a b => a.1 ≤ b.1).flatMap_right
        fun entry : String × Entry =>
          if entry.2.isEntered entry.1 then entry.2.met.map fun (names, found) => (entry.1 :: names, found)
          else []
      rw [ordered, met, met]
      rw [← metIn_eq_flatMap, ← metIn_eq_flatMap] at sorted
      exact (sorted.trans (metIn_orderedOf_perm entries)).cons _

theorem metIn_orderedOf_perm : (entries : List (String × Entry)) →
    (metIn (orderedOf entries)).Perm (metIn entries)
  | [] => by rw [orderedOf]
  | (name, entry) :: later => by
      rw [orderedOf, metIn, metIn, isEntered_ordered]
      refine List.Perm.append ?_ (metIn_orderedOf_perm later)
      split
      next => exact (met_ordered_perm entry).map _
      next => exact .refl _

end

theorem pairwise_mergeSort_names (nodup : (entries.map (·.1)).Nodup) :
    (entries.mergeSort fun a b => a.1 ≤ b.1).Pairwise fun a b => a.1 < b.1 := by
  have sorted : (entries.mergeSort fun a b => a.1 ≤ b.1).Pairwise fun a b => decide (a.1 ≤ b.1) :=
    List.pairwise_mergeSort (fun a b c => by simpa using le_trans)
      (fun a b => by simpa using le_total a.1 b.1) entries
  have distinct : (entries.mergeSort fun a b => a.1 ≤ b.1).Pairwise fun a b => a.1 ≠ b.1 := by
    rw [← List.pairwise_map, ← List.nodup_iff_pairwise_ne]
    exact ((List.mergeSort_perm _ _).map _).nodup_iff.2 nodup
  exact (sorted.and distinct).imp fun ⟨order, apart⟩ =>
    lt_of_le_of_ne (of_decide_eq_true order) apart

theorem pairwise_met_ordered (tidy : Tidy entry) :
    entry.ordered.met.Pairwise fun a b => a.1 < b.1 := by
  induction tidy with
  | file => simp [ordered, met]
  | link => simp [ordered, met]
  | @folder entries nodup named inner ih =>
      rw [ordered, met, List.pairwise_cons]
      constructor
      · -- A folder comes before what is in it.
        rintro ⟨names, seen⟩ member
        obtain ⟨name, child, later, -, -, -, rfl⟩ := mem_metIn_iff.1 member
        exact List.nil_lt_cons _ _
      rw [metIn_eq_flatMap, List.pairwise_flatMap, orderedOf_eq_map]
      constructor
      · -- In one entry all things have its name in front.
        intro entry member
        obtain ⟨original, given, rfl⟩ := List.mem_map.1 ((List.mergeSort_perm _ _).mem_iff.1 member)
        split
        next =>
          rw [List.pairwise_map]
          exact (ih original given).imp fun order => List.cons_lt_cons_iff.2 (.inr ⟨rfl, order⟩)
        next => exact .nil
      · -- Of two entries the names decide.
        have nodup' : ((entries.map fun entry => (entry.1, entry.2.ordered)).map (·.1)).Nodup := by
          rwa [List.map_map]
        refine (pairwise_mergeSort_names nodup').imp fun before x first y second => ?_
        split at first
        next =>
          split at second
          next =>
            obtain ⟨_, _, rfl⟩ := List.mem_map.1 first
            obtain ⟨_, _, rfl⟩ := List.mem_map.1 second
            exact List.cons_lt_cons_iff.2 (.inl before)
          next => cases second
        next => cases first

end Entry

namespace SourceFile

open Entry (Tidy)

variable {root : Path} {entry seen : Entry} {entries : List (String × Entry)}
  {names folders : List String} {name : String} {file : SourceFile} {files : List SourceFile}
  {items : List (List String × Entry)} {tree : FileTree} {location : Location}

/-! ## The source file at the end of names -/

theorem admit?_file_eq_some_iff {bytes : ByteArray} {mode : Mode} :
    admit? root names (.file bytes mode) = some file ↔
      mode.isRegular = true ∧ mode.isReadable = true ∧
        FileTree.fits (names.foldl Path.join root) = true ∧
        (names.foldl Path.join root).extension?.bind Language.ofExtension? = some file.language ∧
        String.fromUTF8? bytes = some file.content ∧
        file.path = names.foldl Path.join root ∧ file.relativePath = "/".intercalate names := by
  rw [admit?]
  obtain ⟨path, relativePath, content, language⟩ := file
  cases mode.isRegular with
  | false => simp
  | true =>
      cases (names.foldl Path.join root).extension?.bind Language.ofExtension? with
      | none => simp [bind]
      | some language' =>
          cases FileTree.fits (names.foldl Path.join root) with
          | false => simp [bind]
          | true =>
              cases mode.isReadable with
              | false => simp [bind]
              | true =>
                  cases String.fromUTF8? bytes with
                  | none => simp [bind]
                  | some content' =>
                      simp only [bind, pure, if_true, Bool.and_self, Option.bind_some,
                        Option.some.injEq, mk.injEq, true_and]
                      constructor
                      · rintro ⟨rfl, rfl, rfl, rfl⟩
                        exact ⟨rfl, rfl, rfl, rfl⟩
                      · rintro ⟨rfl, rfl, rfl, rfl⟩
                        exact ⟨rfl, rfl, rfl, rfl⟩

theorem admit?_eq_some_iff :
    admit? root names seen = some file ↔ ∃ bytes mode, seen = .file bytes mode ∧
      admit? root names (.file bytes mode) = some file := by
  cases seen with
  | file bytes mode => simp
  | link target => simp [admit?]
  | folder entries => simp [admit?]

/-! ## How a walk ends -/

/-- What can be listed decides where a walk ends. -/
theorem below_congr {tree' : FileTree} (same : tree.isListed = tree'.isListed) :
    below tree = below tree' := by
  funext location root entry
  have enters : enter tree location root = enter tree' location root := by
    funext item
    rw [enter, enter, FileTree.openFolder, FileTree.openFolder, same]
  rw [below, below]
  induction entry.ordered.met with
  | nil => rfl
  | cons item later ih => rw [gather, gather, enters, ih]

theorem gather_cons_of_ok {item : List String × Entry}
    (opens : enter tree location root item = .ok ()) :
    gather tree location root (item :: items) =
      (gather tree location root items).map ((admit? root item.1 item.2).toList ++ ·) := by
  rw [gather, opens]
  cases gather tree location root items <;> rfl

theorem gather_cons_of_error {item : List String × Entry} {fault : Fault}
    (closed : enter tree location root item = .error fault) :
    gather tree location root (item :: items) =
      .error (.traversal (item.1.foldl Path.join root) fault) := by
  rw [gather, closed]

theorem gather_eq_ok_iff :
    gather tree location root items = .ok files ↔
      (∀ item ∈ items, enter tree location root item = .ok ()) ∧
        files = items.filterMap fun item => admit? root item.1 item.2 := by
  induction items generalizing files with
  | nil => simp [gather, eq_comm]
  | cons item later ih =>
      rw [List.forall_mem_cons]
      -- An item that cannot be opened ends the walk, whatever comes behind it.
      cases opened : enter tree location root item with
      | error fault =>
          rw [gather_cons_of_error opened]
          simp
      | ok _ =>
          have first : (item :: later).filterMap (fun item => admit? root item.1 item.2) =
              (admit? root item.1 item.2).toList ++
                later.filterMap fun item => admit? root item.1 item.2 := by
            rw [List.filterMap_cons]
            cases admit? root item.1 item.2 <;> rfl
          rw [gather_cons_of_ok opened, first]
          cases rest : gather tree location root later with
          | error e =>
              have closed : ¬ ∀ item ∈ later, enter tree location root item = .ok () := by
                intro others
                cases rest.symm.trans (ih.2 ⟨others, rfl⟩)
              refine iff_of_false (fun failed => ?_) fun ⟨⟨_, others⟩, _⟩ => closed others
              cases failed
          | ok files' =>
              obtain ⟨others, rfl⟩ := ih.1 rest
              constructor
              · intro made
                exact ⟨⟨rfl, others⟩, (Except.ok.inj made).symm⟩
              · rintro ⟨-, rfl⟩
                rfl

theorem gather_of_error {before later : List (List String × Entry)} {item : List String × Entry}
    {fault : Fault} (opens : ∀ item ∈ before, enter tree location root item = .ok ())
    (closed : enter tree location root item = .error fault) :
    gather tree location root (before ++ item :: later) =
      .error (.traversal (item.1.foldl Path.join root) fault) := by
  induction before with
  | nil => exact gather_cons_of_error closed
  | cons first before ih =>
      obtain ⟨here, others⟩ := List.forall_mem_cons.1 opens
      rw [List.cons_append, gather_cons_of_ok here, ih others]
      rfl

theorem mem_of_below (found : below tree location root entry = .ok files) :
    file ∈ files ↔ ∃ names seen, (names, seen) ∈ entry.met ∧ admit? root names seen = some file := by
  obtain ⟨-, rfl⟩ := gather_eq_ok_iff.1 found
  simp only [List.mem_filterMap, (Entry.met_ordered_perm _).mem_iff, Prod.exists]

/-- The names that lead to a file from the root of its project, as they are encoded. -/
def nameBytes (file : SourceFile) : List (List UInt8) :=
  (Text.splitOn '/' file.relativePath.toList).map fun name => Text.bytes (String.ofList name)

theorem nameBytes_eq_map (slashless : ∀ n ∈ names, '/' ∉ n.toList) (nonempty : names ≠ [])
    (written : file.relativePath = "/".intercalate names) :
    file.nameBytes = names.map Text.bytes := by
  have cut : Text.splitOn '/' ("/".intercalate names).toList = names.map (·.toList) := by
    rw [String.toList_intercalate]
    exact Path.splitOn_joined slashless nonempty
  rw [nameBytes, written, cut, List.map_map]
  simp [Function.comp_def]

theorem isName_of_mem_met {bytes : ByteArray} {mode : Mode} (tidy : Tidy (.folder entries))
    (member : (names, .file bytes mode) ∈ (Entry.folder entries).met) :
    names ≠ [] ∧ ∀ n ∈ names, Path.IsName n := by
  have standing := ((Entry.file_mem_met_iff tidy).1 member).1
  refine ⟨?_, (tidy.of_find? standing).1⟩
  rintro rfl
  cases standing

theorem of_mem_below (tidy : Tidy tree.top)
    (standing : tree.top.find? location = some (.folder entries))
    (found : below tree location root (.folder entries) = .ok files) (member : file ∈ files) :
    ∃ names, names ≠ [] ∧ (∀ n ∈ names, Path.IsName n) ∧
      file.path = names.foldl Path.join root ∧ file.relativePath = "/".intercalate names ∧
      ∃ bytes mode, tree.top.find? (location ++ names) = some (.file bytes mode) ∧
        mode.isRegular = true := by
  have inner := (tidy.of_find? standing).2
  obtain ⟨names, seen, held, made⟩ := (mem_of_below found).1 member
  obtain ⟨bytes, mode, rfl, made⟩ := admit?_eq_some_iff.1 made
  obtain ⟨nonempty, isName⟩ := isName_of_mem_met inner held
  obtain ⟨regular, -, -, -, -, path, relativePath⟩ := admit?_file_eq_some_iff.1 made
  refine ⟨names, nonempty, isName, path, relativePath, bytes, mode, ?_, regular⟩
  rw [Entry.find?_append, standing]
  exact ((Entry.file_mem_met_iff inner).1 held).1

theorem exists_below_of_collect (collected : collect tree root = .ok files) :
    ∃ location entries, tree.lookup root = .ok (location, .folder entries) ∧
      below tree location root (.folder entries) = .ok files := by
  unfold collect at collected
  split at collected
  next location entries found => exact ⟨location, entries, found, collected⟩
  next => cases collected

theorem of_mem_collect (tidy : Tidy tree.top)
    (collected : collect tree root = .ok files) :
    ∃ location entries, tree.lookup root = .ok (location, .folder entries) ∧ ∀ file ∈ files,
      ∃ names, names ≠ [] ∧ (∀ n ∈ names, Path.IsName n) ∧
        file.path = names.foldl Path.join root ∧ file.relativePath = "/".intercalate names ∧
        ∃ bytes mode, tree.top.find? (location ++ names) = some (.file bytes mode) ∧
          mode.isRegular = true := by
  obtain ⟨location, entries, found, made⟩ := exists_below_of_collect collected
  obtain ⟨-, -, standing⟩ := FileTree.lookup_eq_ok_iff.1 found
  exact ⟨location, entries, found, fun file member => of_mem_below tidy standing made member⟩

/-- The folder of a source file is absolute, as the root is, and says what stands in front of the name
of the file. -/
theorem folder_of_path (absolute : root.isAbsolute = true) (nonempty : names ≠ [])
    (isName : ∀ n ∈ names, Path.IsName n) (path : file.path = names.foldl Path.join root) :
    file.folder.isAbsolute = true ∧
      file.folder.components = root.components ++ names.dropLast.map .name := by
  obtain ⟨above, parent, meaning⟩ :=
    Path.exists_parent?_foldl_join isName (Path.text_ne_of_isAbsolute absolute) nonempty
  have start : (names.foldl Path.join root).isAbsolute = true :=
    Path.isAbsolute_foldl_join absolute names
  rw [folder, path, parent]
  exact ⟨Path.isAbsolute_parent? start parent, meaning⟩

theorem pairwise_nameBytes (tidy : Tidy (.folder entries))
    (found : below tree location root (.folder entries) = .ok files) :
    files.Pairwise fun a b => a.nameBytes < b.nameBytes := by
  obtain ⟨-, rfl⟩ := gather_eq_ok_iff.1 found
  rw [List.pairwise_filterMap]
  refine (Entry.pairwise_met_ordered tidy).imp_of_mem ?_
  rintro ⟨names, seen⟩ ⟨names', seen'⟩ here there before a made b made'
  have written : ∀ {names seen file}, (names, seen) ∈ (Entry.folder entries).ordered.met →
      admit? root names seen = some file → file.nameBytes = names.map Text.bytes := by
    intro names seen file member made
    rw [(Entry.met_ordered_perm _).mem_iff] at member
    obtain ⟨bytes, mode, rfl, made⟩ := admit?_eq_some_iff.1 made
    obtain ⟨nonempty, isName⟩ := isName_of_mem_met tidy member
    obtain ⟨-, -, -, -, -, -, relativePath⟩ := admit?_file_eq_some_iff.1 made
    exact nameBytes_eq_map (fun n given => (isName n given).slashless) nonempty relativePath
  rw [written here made, written there made']
  exact Text.map_bytes_lt before

/-! ## The source files of a project -/

/-- A walk that starts at a folder comes to a folder below it. -/
def Enters (entries : List (String × Entry)) (folders : List String) : Prop :=
  (∃ inner, (Entry.folder entries).find? folders = some (.folder inner)) ∧
    ∀ folder ∈ folders, folder ∉ ignoredFolders

theorem enter_folder (isFolder : seen.isFolder = true) :
    enter tree location root (names, seen) =
      tree.openFolder (location ++ names) (names.foldl Path.join root) := by
  rw [enter, if_pos isFolder]

theorem enters_of_error (tidy : Tidy (.folder entries)) {item : List String × Entry} {fault : Fault}
    (member : item ∈ (Entry.folder entries).met)
    (closed : enter tree location root item = .error fault) :
    Enters entries item.1 ∧
      tree.openFolder (location ++ item.1) (item.1.foldl Path.join root) = .error fault := by
  cases isFolder : item.2.isFolder with
  | false => simp [enter, isFolder] at closed
  | true =>
      rw [enter_folder isFolder] at closed
      exact ⟨(Entry.folder_mem_met_iff tidy).1 ⟨item.2, member, isFolder⟩, closed⟩

theorem forall_enter_iff (tidy : Tidy (.folder entries)) :
    (∀ item ∈ (Entry.folder entries).ordered.met, enter tree location root item = .ok ()) ↔
      ∀ folders, Enters entries folders →
        tree.openFolder (location ++ folders) (folders.foldl Path.join root) = .ok () := by
  simp only [(Entry.met_ordered_perm _).mem_iff]
  constructor
  · intro opens folders enters
    obtain ⟨seen, member, isFolder⟩ := (Entry.folder_mem_met_iff tidy).2 enters
    rw [← enter_folder isFolder]
    exact opens (folders, seen) member
  · intro opens item member
    cases closed : enter tree location root item with
    | ok => rfl
    | error fault =>
        obtain ⟨enters, closed⟩ := enters_of_error tidy member closed
        cases (opens item.1 enters).symm.trans closed

theorem below_of_error (tidy : Tidy (.folder entries)) (enters : Enters entries folders)
    {fault : Fault}
    (closed : tree.openFolder (location ++ folders) (folders.foldl Path.join root) = .error fault)
    (first : ∀ other, Enters entries other →
      tree.openFolder (location ++ other) (other.foldl Path.join root) ≠ .ok () →
      folders ≤ other) :
    below tree location root (.folder entries) =
      .error (.traversal (folders.foldl Path.join root) fault) := by
  obtain ⟨seen, member, isFolder⟩ := (Entry.folder_mem_met_iff tidy).2 enters
  rw [← (Entry.met_ordered_perm _).mem_iff] at member
  obtain ⟨before, later, split⟩ := List.append_of_mem member
  rw [below, split]
  refine gather_of_error (fun item earlier => ?_) ((enter_folder isFolder).trans closed)
  -- What comes earlier in the walk comes earlier in the order of names.
  have sorted := Entry.pairwise_met_ordered tidy
  rw [split] at sorted
  have less : item.1 < folders :=
    (List.pairwise_append.1 sorted).2.2 item earlier _ List.mem_cons_self
  have met : item ∈ (Entry.folder entries).met := by
    rw [← (Entry.met_ordered_perm _).mem_iff, split]
    exact List.mem_append_left _ earlier
  cases shut : enter tree location root item with
  | ok => rfl
  | error other =>
      obtain ⟨enters, shut⟩ := enters_of_error tidy met shut
      exact absurd less (not_lt.2 (first item.1 enters (by simp [shut])))

/-- A scan collects the regular files that are neither below an ignored folder nor behind a link, whose
ending announces a language, and that can be read as text, in the order of their names. It fails if it
comes to a folder that it cannot open, and reports the first such folder. -/
theorem collect_admissible {tree : FileTree} {root : Path} {location : Location}
    {entries : List (String × Entry)} (found : tree.lookup root = .ok (location, .folder entries))
    (tidy : Tidy (.folder entries)) :
    ((∀ folders, Enters entries folders →
        tree.openFolder (location ++ folders) (folders.foldl Path.join root) = .ok ()) →
      ∃ files, collect tree root = .ok files ∧
        (∀ file, file ∈ files ↔ ∃ folders name bytes mode,
          (Entry.folder entries).find? (folders ++ [name]) = some (.file bytes mode) ∧
          (∀ folder ∈ folders, folder ∉ ignoredFolders) ∧
          mode.isRegular = true ∧ mode.isReadable = true ∧
          FileTree.fits ((folders ++ [name]).foldl Path.join root) = true ∧
          (Path.mk name).extension?.bind Language.ofExtension? = some file.language ∧
          String.fromUTF8? bytes = some file.content ∧
          file.path = (folders ++ [name]).foldl Path.join root ∧
          file.relativePath = "/".intercalate (folders ++ [name])) ∧
        files.Pairwise (fun a b => a.nameBytes < b.nameBytes) ∧
        (files.map (·.relativePath)).Nodup) ∧
      ∀ folders fault, Enters entries folders →
        tree.openFolder (location ++ folders) (folders.foldl Path.join root) = .error fault →
        (∀ other, Enters entries other →
          tree.openFolder (location ++ other) (other.foldl Path.join root) ≠ .ok () →
          folders ≤ other) →
        collect tree root = .error (.traversal (folders.foldl Path.join root) fault) := by
  have filled : root.text ≠ "" := by
    intro empty
    obtain ⟨checked, -⟩ := FileTree.lookup_eq_ok_iff.1 found
    rw [FileTree.checkText, empty] at checked
    cases checked
  have collects : collect tree root = below tree location root (.folder entries) := by
    rw [collect, found]
  rw [collects]
  refine ⟨fun opens => ?_, fun folders fault enters closed => below_of_error tidy enters closed⟩
  have made := gather_eq_ok_iff.2 ⟨(forall_enter_iff tidy).2 opens, rfl⟩
  have sorted := pairwise_nameBytes tidy made
  refine ⟨_, made, fun file => ?_, sorted, ?_⟩
  · rw [mem_of_below made]
    constructor
    · rintro ⟨names, seen, member, made⟩
      obtain ⟨bytes, mode, rfl, made⟩ := admit?_eq_some_iff.1 made
      obtain ⟨nonempty, isName⟩ := isName_of_mem_met tidy member
      obtain ⟨standing, free⟩ := (Entry.file_mem_met_iff tidy).1 member
      obtain ⟨folders, name, rfl⟩ := (List.eq_nil_or_concat' names).resolve_left nonempty
      rw [List.dropLast_concat] at free
      rw [admit?_file_eq_some_iff, Path.extension?_foldl_join isName filled] at made
      exact ⟨folders, name, bytes, mode, standing, free, made⟩
    · rintro ⟨folders, name, bytes, mode, standing, free, made⟩
      have isName := (tidy.of_find? standing).1
      rw [← Path.extension?_foldl_join isName filled, ← admit?_file_eq_some_iff] at made
      refine ⟨_, .file bytes mode, (Entry.file_mem_met_iff tidy).2 ⟨standing, ?_⟩, made⟩
      rwa [List.dropLast_concat]
  · rw [List.nodup_iff_pairwise_ne, List.pairwise_map]
    refine sorted.imp fun before same => ?_
    rw [nameBytes, nameBytes, same] at before
    exact List.lt_irrefl _ before

/-- A folder comes before a file whose name its own name begins. A file that cannot be read is left out,
and so is one that is no text. -/
theorem collect_admissible_folder_first :
    let unread := { Mode.plain with isReadable := false }
    let entries := [("a.ts", Entry.file "x".toUTF8), ("a", .folder [("b.py", .file .empty)]),
      ("build", .folder [("c.ts", .file .empty)]), ("d.ts", .link "a.ts"),
      ("e.ts", .file ⟨#[255]⟩), ("f.txt", .file .empty), ("g.ts", .file .empty unread)]
    let tree := FileTree.single entries
    tree.lookup ⟨"/p"⟩ = .ok (["p"], .folder entries) ∧ Tidy (.folder entries) ∧
      ∃ files, collect tree ⟨"/p"⟩ = .ok files ∧
        files.map (·.relativePath) = ["a/b.py", "a.ts"] := by
  intro unread entries tree
  have found := FileTree.lookup_single entries
  have tidy : Tidy (.folder entries) := by
    have single : ∀ name ∈ ["b.py", "c.ts"], Tidy (.folder [(name, .file .empty)]) :=
      fun name member => .folder (List.nodup_singleton name) (by revert name; decide)
        (List.forall_mem_singleton.2 .file)
    refine .folder (by decide) (by decide) ?_
    simp only [entries, List.forall_mem_cons]
    exact ⟨.file, single _ (by decide), single _ (by decide), .link, .file, .file, .file, nofun⟩
  have met : (Entry.folder entries).met = [([], .folder []), (["a.ts"], .file "x".toUTF8),
      (["a"], .folder []), (["a", "b.py"], .file .empty), (["d.ts"], .link "a.ts"),
      (["e.ts"], .file ⟨#[255]⟩), (["f.txt"], .file .empty), (["g.ts"], .file .empty unread)] := by
    simp [entries, Entry.met, Entry.metIn, Entry.isEntered, Entry.isFolder, ignoredFolders]
  have opens : ∀ folders, Enters entries folders →
      tree.openFolder (["p"] ++ folders) (folders.foldl Path.join ⟨"/p"⟩) = .ok () := by
    intro folders enters
    obtain ⟨seen, member, folder⟩ := (Entry.folder_mem_met_iff tidy).2 enters
    rw [met] at member
    simp only [List.mem_cons, Prod.mk.injEq, List.not_mem_nil, or_false] at member
    obtain ⟨rfl, -⟩ | ⟨-, rfl⟩ | ⟨rfl, -⟩ | ⟨-, rfl⟩ | ⟨-, rfl⟩ | ⟨-, rfl⟩ | ⟨-, rfl⟩ | ⟨-, rfl⟩ := member
    · decide
    · cases folder
    · decide
    all_goals cases folder
  obtain ⟨files, collected, mem_iff, sorted, distinct⟩ := (collect_admissible found tidy).1 opens
  have collected_iff : ∀ path, path ∈ files.map (·.relativePath) ↔ path ∈ ["a/b.py", "a.ts"] := by
    intro path
    constructor
    · intro given
      obtain ⟨file, held, rfl⟩ := List.mem_map.1 given
      obtain ⟨folders, name, bytes, mode, standing, free, -, readable, -, ending, text, -, written⟩ :=
        (mem_iff file).1 held
      have member : (folders ++ [name], Entry.file bytes mode) ∈ (Entry.folder entries).met := by
        refine (Entry.file_mem_met_iff tidy).2 ⟨standing, ?_⟩
        rwa [List.dropLast_concat]
      rw [met] at member
      simp only [List.mem_cons, Prod.mk.injEq, Entry.file.injEq, reduceCtorEq, and_false, false_or,
        List.not_mem_nil, or_false] at member
      obtain ⟨same, rfl, rfl⟩ | ⟨same, rfl, rfl⟩ | ⟨same, rfl, rfl⟩ | ⟨same, rfl, rfl⟩ |
        ⟨same, rfl, rfl⟩ := member
      · rw [written, same]
        decide
      · rw [written, same]
        decide
      · cases text
      · obtain rfl : name = "f.txt" := by simpa using congrArg List.getLast? same
        cases ending
      · cases readable
    · intro given
      simp only [List.mem_cons, List.not_mem_nil, or_false] at given
      obtain rfl | rfl := given
      · refine List.mem_map.2 ⟨⟨⟨"/p/a/b.py"⟩, "a/b.py", "", .python⟩, ?_, rfl⟩
        exact (mem_iff _).2 ⟨["a"], "b.py", .empty, .plain, rfl, by decide, rfl, rfl, by decide,
          by decide, rfl, by decide, by decide⟩
      · refine List.mem_map.2 ⟨⟨⟨"/p/a.ts"⟩, "a.ts", "x", .typeScript⟩, ?_, rfl⟩
        exact (mem_iff _).2 ⟨[], "a.ts", _, .plain, rfl, by decide, rfl, rfl, by decide,
          by decide, rfl, by decide, by decide⟩
  refine ⟨found, tidy, files, collected, ?_⟩
  -- In both lists the names increase, so they are the same list.
  let key := fun path : String => nameBytes ⟨⟨""⟩, path, "", .unknown⟩
  have increasing : (files.map (·.relativePath)).Pairwise fun a b => key a < key b :=
    List.pairwise_map.2 sorted
  refine List.Perm.eq_of_pairwise (fun a b _ _ before after => ?_) increasing (by decide)
    ((List.perm_ext_iff_of_nodup distinct (by decide)).2 collected_iff)
  exact absurd after (List.lt_asymm before)

theorem collect_eq_ok {tree : FileTree} {root : Path} {location : Location}
    {entries : List (String × Entry)} (found : tree.lookup root = .ok (location, .folder entries))
    (standing : (Entry.folder entries).ordered = .folder entries)
    (opens : ∀ item ∈ (Entry.folder entries).met, enter tree location root item = .ok ()) :
    collect tree root =
      .ok ((Entry.folder entries).met.filterMap fun item => admit? root item.1 item.2) := by
  rw [collect, found]
  simp only [below, standing]
  exact gather_eq_ok_iff.2 ⟨opens, rfl⟩

/-! ## A folder that cannot be opened -/

/-- The path `/p/././….` to the folder `p`. -/
def idleRoot (count : Nat) : Path :=
  ⟨String.ofList (['/', 'p'] ++ '/' :: (FileTree.stays count ++ ['.']))⟩

theorem toList_idleRoot (count : Nat) :
    (idleRoot count).text.toList = ['/', 'p'] ++ '/' :: (FileTree.stays count ++ ['.']) :=
  String.toList_ofList

theorem utf8ByteSize_idleRoot (count : Nat) :
    (idleRoot count).text.utf8ByteSize = 2 * count + 4 := by
  have size := FileTree.utf8Len_stays count
  rw [idleRoot, String.utf8ByteSize_ofList]
  simp only [String.utf8Len_append, String.utf8Len_cons, String.utf8Len_nil, size,
    show Char.utf8Size '/' = 1 from rfl, show Char.utf8Size 'p' = 1 from rfl,
    show Char.utf8Size '.' = 1 from rfl]
  omega

theorem text_idleRoot_ne (count : Nat) : (idleRoot count).text ≠ "" := by
  intro empty
  have written := toList_idleRoot count
  rw [empty] at written
  cases written

theorem getLast?_idleRoot (count : Nat) : (idleRoot count).text.toList.getLast? ≠ some '/' := by
  rw [toList_idleRoot, ← List.cons_append, ← List.append_assoc, List.getLast?_concat]
  decide

theorem utf8ByteSize_join_idleRoot (count : Nat) :
    ((idleRoot count).join "d").text.utf8ByteSize = 2 * count + 6 := by
  have relative : (Path.mk "d").isAbsolute = false := by decide
  have whole : (idleRoot count).text.isEmpty = false := by
    simpa using text_idleRoot_ne count
  rw [Path.join, relative, whole, Bool.or_self, if_neg Bool.false_ne_true,
    if_neg (by simpa using getLast?_idleRoot count)]
  simp only [String.utf8ByteSize_append, utf8ByteSize_idleRoot]
  rfl

theorem lookup_idleRoot {count : Nat} (short : 2 * count + 4 ≤ FileTree.pathLimit)
    (entries : List (String × Entry)) :
    (FileTree.single entries).lookup (idleRoot count) = .ok (["p"], .folder entries) := by
  have steps : FileTree.steps (idleRoot count).text =
      "p" :: (List.replicate count "." ++ ["."]) := by
    have top : FileTree.segments ['/', 'p'] = ["p"] := by decide
    have here : FileTree.segments ['.'] = ["."] := by decide
    rw [FileTree.steps_eq, if_neg (getLast?_idleRoot count), toList_idleRoot, FileTree.segments_append_slash,
      FileTree.segments_stays, List.append_nil, top, here, List.singleton_append]
  have checked : FileTree.checkText (idleRoot count) = .ok () := by
    have filled : (idleRoot count).text.isEmpty = false := by simpa using text_idleRoot_ne count
    have clean : '\x00' ∉ (idleRoot count).text.toList := by
      have idle := FileTree.not_mem_stays (c := '\x00') (by decide) (by decide) count
      rw [toList_idleRoot]
      simp [idle]
    rw [FileTree.checkText, filled, if_neg Bool.false_ne_true, if_neg (by simpa using clean),
      utf8ByteSize_idleRoot, if_neg (Nat.not_lt.2 short)]
  have absolute : (idleRoot count).isAbsolute = true := by
    rw [Path.isAbsolute, toList_idleRoot]
    rfl
  refine FileTree.lookup_eq_ok_iff.2 ⟨checked, ?_, rfl⟩
  rw [steps, FileTree.origin, if_pos absolute]
  exact .enter (by decide) rfl (FileTree.leads_stays count (.stay .stop))

/-- Without a bound on the paths of folders a scan may fail. -/
theorem collect_admissible_deep :
    ¬ ∀ (tree : FileTree) (root : Path) (location : Location) (entries : List (String × Entry)),
      tree.lookup root = .ok (location, .folder entries) → Tidy (.folder entries) →
      ∃ files, collect tree root = .ok files ∧
        (∀ file, file ∈ files ↔ ∃ folders name bytes mode,
          (Entry.folder entries).find? (folders ++ [name]) = some (.file bytes mode) ∧
          (∀ folder ∈ folders, folder ∉ ignoredFolders) ∧
          mode.isRegular = true ∧ mode.isReadable = true ∧
          FileTree.fits ((folders ++ [name]).foldl Path.join root) = true ∧
          (Path.mk name).extension?.bind Language.ofExtension? = some file.language ∧
          String.fromUTF8? bytes = some file.content ∧
          file.path = (folders ++ [name]).foldl Path.join root ∧
          file.relativePath = "/".intercalate (folders ++ [name])) ∧
        files.Pairwise (fun a b => a.nameBytes < b.nameBytes) ∧
        (files.map (·.relativePath)).Nodup := by
  intro all
  have tidy : Tidy (.folder [("d", .folder [])]) := by
    have inner : Tidy (.folder []) := .folder List.nodup_nil (by simp) (by simp)
    exact .folder (List.nodup_singleton _) (by decide) (List.forall_mem_singleton.2 inner)
  -- From here on it does not matter how many segments there are.
  obtain ⟨count, short, long⟩ : ∃ count, 2 * count + 4 ≤ FileTree.pathLimit ∧
      FileTree.pathLimit < 2 * count + 6 := ⟨2045, by decide, by decide⟩
  have found := lookup_idleRoot short [("d", .folder [])]
  have opens : enter (.single [("d", .folder [])]) ["p"] (idleRoot count) ([], .folder []) = .ok () := by
    have fits : FileTree.fits (idleRoot count) = true := by
      simpa [FileTree.fits, utf8ByteSize_idleRoot] using short
    rw [enter_folder rfl, FileTree.openFolder, List.foldl_nil, fits]
    rfl
  have closed : enter (.single [("d", .folder [])]) ["p"] (idleRoot count) (["d"], .folder []) =
      .error .nameTooLong := by
    have tooLong : FileTree.fits ((idleRoot count).join "d") = false := by
      simpa [FileTree.fits, utf8ByteSize_join_idleRoot] using long
    rw [enter_folder rfl, FileTree.openFolder, List.foldl_cons, List.foldl_nil, tooLong]
    rfl
  have met : (Entry.folder [("d", .folder [])]).ordered.met =
      [([], .folder [])] ++ [(["d"], .folder [])] := by
    simp [Entry.ordered, Entry.orderedOf, Entry.met, Entry.metIn, Entry.isEntered, Entry.isFolder,
      ignoredFolders]
  have failed : collect (.single [("d", .folder [])]) (idleRoot count) =
      .error (.traversal ((idleRoot count).join "d") .nameTooLong) := by
    rw [collect, found]
    simp only [below, met]
    exact gather_of_error (List.forall_mem_singleton.2 opens) closed
  obtain ⟨files, collected, -⟩ := all _ _ _ _ found tidy
  cases failed.symm.trans collected

end SourceFile

end FileGraph
