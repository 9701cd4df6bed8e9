import FileGraph.Proofs.Path

/-! # Where written locations lead

* `FileTree.WellFormed`: every name in a tree can be a file name.
* `FileTree.walk_append`: names that lead to a folder are walked one by one.
* `FileTree.isFile_iff_walk`: a path written below a folder leads to a file if the steps behind the
  folder do.
* `FileTree.isFile_of_file`, `FileTree.isFile_eq_false_of_missing`: what is found right in a folder.
-/

namespace FileGraph

namespace Entry

theorem find?_append (entry : Entry) (names later : List String) :
    entry.find? (names ++ later) = (entry.find? names).bind (·.find? later) := by
  induction names generalizing entry with
  | nil => rfl
  | cons name names ih =>
      rw [List.cons_append, find?, find?]
      cases entry.child? name with
      | none => rfl
      | some child => exact ih child

theorem exists_folder_of_find?_cons {entry found : Entry} {name : String} {later : List String}
    (below : entry.find? (name :: later) = some found) : ∃ entries, entry = .folder entries := by
  cases entry with
  | folder entries => exact ⟨entries, rfl⟩
  | file bytes => cases below
  | link target => cases below

theorem exists_folder_of_below {entry found : Entry} {names later : List String} {name : String}
    (standing : entry.find? (names ++ name :: later) = some found) :
    ∃ entries, entry.find? names = some (.folder entries) := by
  rw [find?_append] at standing
  obtain ⟨middle, held, deeper⟩ := Option.bind_eq_some_iff.1 standing
  obtain ⟨entries, rfl⟩ := exists_folder_of_find?_cons deeper
  exact ⟨entries, held⟩

theorem exists_folder_of_find?_append {entry : Entry} {names later : List String}
    {entries : List (String × Entry)}
    (below : entry.find? (names ++ later) = some (.folder entries)) :
    ∃ inner, entry.find? names = some (.folder inner) := by
  cases later with
  | nil => exact ⟨entries, names.append_nil ▸ below⟩
  | cons name later => exact exists_folder_of_below below

end Entry

namespace FileTree

/-- A name that a file system allows. -/
structure IsFileName (name : String) : Prop extends Path.IsName name where
  zeroless : '\x00' ∉ name.toList
  short : name.utf8ByteSize ≤ nameLimit

theorem isFileName_iff {name : String} :
    IsFileName name ↔
      Path.IsName name ∧ '\x00' ∉ name.toList ∧ name.utf8ByteSize ≤ nameLimit := by
  constructor
  · intro allowed
    exact ⟨allowed.toIsName, allowed.zeroless, allowed.short⟩
  · rintro ⟨isName, zeroless, short⟩
    exact ⟨isName, zeroless, short⟩

instance : DecidablePred IsFileName := fun _ => decidable_of_iff _ isFileName_iff.symm

/-- Whatever stands at or below an entry stands under names that a file system allows. -/
def WellNamed (entry : Entry) : Prop :=
  ∀ location found, entry.find? location = some found → ∀ name ∈ location, IsFileName name

/-- A tree that a file system can hold. -/
def WellFormed (tree : FileTree) : Prop :=
  WellNamed tree.top

theorem wellNamed_file (bytes : ByteArray) (mode : Mode) : WellNamed (.file bytes mode) := by
  intro location found below name member
  cases location with
  | nil => cases member
  | cons first later => cases below

theorem wellNamed_folder {entries : List (String × Entry)}
    (inner : ∀ entry ∈ entries, IsFileName entry.1 ∧ WellNamed entry.2) :
    WellNamed (.folder entries) := by
  intro location found below name member
  cases location with
  | nil => cases member
  | cons first later =>
      rw [Entry.find?] at below
      obtain ⟨child, standing, deeper⟩ := Option.bind_eq_some_iff.1 below
      obtain ⟨before, behind, rfl, -⟩ := List.lookup_eq_some_iff.1 standing
      have both := inner (first, child) (List.mem_append_right before List.mem_cons_self)
      cases List.mem_cons.1 member with
      | inl here => exact here ▸ both.1
      | inr there => exact both.2 later found deeper name there

/-! ## Steps -/

theorem steps_toPath {location : Location} (segments : ∀ s ∈ location, Path.IsSegment s)
    (nonempty : location ≠ []) : steps location.toPath.text = location := by
  have cut : Text.splitOn '/' location.toPath.text.toList = [] :: location.map (·.toList) := by
    rw [Path.toList_toPath]
    exact congrArg _ (Path.splitOn_joined (fun s given => (segments s given).slashless) nonempty)
  have filled : (location.map (·.toList)).filter (· ≠ []) = location.map (·.toList) := by
    rw [List.filter_eq_self]
    intro segment member
    obtain ⟨s, given, rfl⟩ := List.mem_map.1 member
    simpa using (segments s given).filled
  unfold steps
  dsimp only
  rw [if_neg (mt (Path.getLast?_toPath segments).1 nonempty), cut, List.filter_cons_of_neg (by simp),
    filled, List.map_map]
  simp

variable {top : Entry} {links : Nat} {here : Location} {name : String} {rest : List String}

theorem walk_nil : walk top links here [] = .ok here := by
  rw [walk]

theorem walk_name (isName : Path.IsName name) (short : name.utf8ByteSize ≤ nameLimit)
    (noLink : ∀ target, top.find? (here ++ [name]) ≠ some (.link target)) :
    walk top links here (name :: rest) =
      match top.find? (here ++ [name]) with
      | some (.folder _) => walk top links (here ++ [name]) rest
      | some _ => if rest = [] then .ok (here ++ [name]) else .error .notFolder
      | none => if rest = [] then .ok (here ++ [name]) else .error .missing := by
  rw [walk, if_neg isName.ne_here, if_neg isName.ne_up, if_neg (Nat.not_lt.2 short)]
  cases found : top.find? (here ++ [name]) with
  | none => rfl
  | some entry =>
      cases entry with
      | folder entries => rfl
      | file bytes => rfl
      | link target => exact absurd found (noLink target)

theorem walk_append {names : List String} {entries : List (String × Entry)}
    (allowed : ∀ n ∈ names, Path.IsName n ∧ n.utf8ByteSize ≤ nameLimit)
    (folder : top.find? (here ++ names) = some (.folder entries)) :
    walk top links here (names ++ rest) = walk top links (here ++ names) rest := by
  induction names generalizing here with
  | nil => rw [List.nil_append, List.append_nil]
  | cons name names ih =>
      -- Something stands below the first name, so that name leads to a folder and to no link.
      have step : here ++ name :: names = (here ++ [name]) ++ names := by simp
      rw [step] at folder ⊢
      obtain ⟨inner, found⟩ := Entry.exists_folder_of_find?_append folder
      obtain ⟨isName, short⟩ := allowed name List.mem_cons_self
      rw [List.cons_append, walk_name isName short (by simp [found]), found]
      exact ih (fun n member => allowed n (List.mem_cons_of_mem _ member)) folder

/-- Under a name where nothing stands, a walk ends at nothing if it ends at all. -/
theorem missing_of_walk {found : Location} (isName : Path.IsName name)
    (missing : top.find? (here ++ [name]) = none)
    (walked : walk top links here (name :: rest) = .ok found) : top.find? found = none := by
  -- A name that is too long, or with steps left behind it, ends the walk with a fault.
  by_cases short : name.utf8ByteSize ≤ nameLimit
  · rw [walk_name isName short (by simp [missing]), missing] at walked
    by_cases last : rest = []
    · simp only [if_pos last, Except.ok.injEq] at walked
      exact walked ▸ missing
    · simp [if_neg last] at walked
  · rw [walk, if_neg isName.ne_here, if_neg isName.ne_up, if_pos (Nat.lt_of_not_le short)] at walked
    cases walked

theorem walk_stay {stay : List String} (idle : ∀ s ∈ stay, s = ".") :
    walk top links here (stay ++ rest) = walk top links here rest := by
  induction stay with
  | nil => rfl
  | cons s stay ih =>
      obtain rfl := idle s List.mem_cons_self
      rw [List.cons_append, walk, if_pos rfl]
      exact ih fun s member => idle s (List.mem_cons_of_mem _ member)

/-! ## Below a folder -/

variable {tree : FileTree} {location : Location} {entries : List (String × Entry)}

theorem lookup_toPath (wellFormed : tree.WellFormed)
    (folder : tree.top.find? location = some (.folder entries))
    (segments : ∀ s ∈ rest, Path.IsSegment s) (nonempty : rest ≠ []) :
    tree.lookup (Location.toPath (location ++ rest)) = (do
      checkText (Location.toPath (location ++ rest))
      let found ← walk tree.top linkLimit location rest
      match tree.top.find? found with
      | none => .error .missing
      | some entry => .ok (found, entry)) := by
  have allowed := wellFormed _ _ folder
  have all : ∀ s ∈ location ++ rest, Path.IsSegment s :=
    List.forall_mem_append.2 ⟨fun s given => (allowed s given).toIsSegment, segments⟩
  have absolute : (Location.toPath (location ++ rest)).isAbsolute = true := by
    rw [Path.isAbsolute, Path.toList_toPath]
    rfl
  have walked : walk tree.top linkLimit [] (location ++ rest) =
      walk tree.top linkLimit location rest :=
    walk_append (fun n given => ⟨(allowed n given).toIsName, (allowed n given).short⟩) folder
  unfold lookup locate origin
  rw [if_pos absolute, steps_toPath all (by simp [nonempty]), walked]
  cases checkText (Location.toPath (location ++ rest)) <;> rfl

theorem isFile_iff_walk (wellFormed : tree.WellFormed)
    (folder : tree.top.find? location = some (.folder entries))
    (segments : ∀ s ∈ rest, Path.IsSegment s) (nonempty : rest ≠ []) :
    tree.isFile (Location.toPath (location ++ rest)) = true ↔
      checkText (Location.toPath (location ++ rest)) = .ok () ∧
        ∃ found bytes mode, walk tree.top linkLimit location rest = .ok found ∧
          tree.top.find? found = some (.file bytes mode) ∧ mode.isRegular = true := by
  rw [isFile, lookup_toPath wellFormed folder segments nonempty]
  cases checkText (Location.toPath (location ++ rest)) with
  | error fault => simp [bind, Except.bind]
  | ok _ =>
      cases walk tree.top linkLimit location rest with
      | error fault => simp [bind, Except.bind]
      | ok found =>
          simp only [bind, Except.bind, true_and, Except.ok.injEq]
          cases standing : tree.top.find? found with
          | none => simp [standing]
          | some entry => cases entry <;> simp [standing]

theorem checkText_toPath (zeroless : ∀ s ∈ location, '\x00' ∉ s.toList)
    (fits : location.toPath.text.utf8ByteSize ≤ pathLimit) : checkText location.toPath = .ok () := by
  have written := Path.toList_toPath location
  have nonempty : location.toPath.text.isEmpty = false := by
    rw [String.isEmpty_eq_false_iff]
    intro empty
    rw [empty] at written
    cases written
  have clean : location.toPath.text.toList.contains '\x00' = false := by
    rw [← Bool.not_eq_true, List.contains_iff_mem]
    intro member
    cases Path.mem_toPath member with
    | inl slash => cases slash
    | inr own => exact zeroless _ own.choose_spec.1 own.choose_spec.2
  rw [checkText, nonempty, clean, if_neg Bool.false_ne_true, if_neg Bool.false_ne_true,
    if_neg (Nat.not_lt.2 fits)]

theorem find?_below (folder : top.find? location = some (.folder entries)) :
    top.find? (location ++ [name]) = entries.lookup name := by
  rw [Entry.find?_append, folder]
  change (entries.lookup name).bind _ = _
  exact Option.bind_fun_some _

section Below

variable {stay : List String} (wellFormed : tree.WellFormed)
  (folder : tree.top.find? location = some (.folder entries)) (idle : ∀ s ∈ stay, s = ".")

include wellFormed folder idle

theorem isFile_eq_false_of_missing (isName : Path.IsName name)
    (segments : ∀ s ∈ rest, Path.IsSegment s) (missing : entries.lookup name = none) :
    tree.isFile (Location.toPath (location ++ (stay ++ name :: rest))) = false := by
  have all : ∀ s ∈ stay ++ name :: rest, Path.IsSegment s := by
    refine List.forall_mem_append.2 ⟨fun s given => idle s given ▸ Path.isSegment_here, ?_⟩
    exact List.forall_mem_cons.2 ⟨isName.toIsSegment, segments⟩
  rw [← Bool.not_eq_true, isFile_iff_walk wellFormed folder all (by simp)]
  rintro ⟨-, found, bytes, mode, walked, standing, -⟩
  rw [walk_stay idle] at walked
  rw [← find?_below folder] at missing
  exact absurd standing (by simp [missing_of_walk isName missing walked])

theorem isFile_of_file {bytes : ByteArray} {mode : Mode}
    (standing : entries.lookup name = some (.file bytes mode)) (regular : mode.isRegular = true)
    (fits : (Location.toPath (location ++ (stay ++ [name]))).text.utf8ByteSize ≤ pathLimit) :
    tree.isFile (Location.toPath (location ++ (stay ++ [name]))) = true := by
  rw [← find?_below folder] at standing
  have allowed := wellFormed _ _ standing
  have isName := allowed name (by simp)
  have all : ∀ s ∈ stay ++ [name], Path.IsSegment s := by
    refine List.forall_mem_append.2 ⟨fun s given => idle s given ▸ Path.isSegment_here, ?_⟩
    exact List.forall_mem_singleton.2 isName.toIsSegment
  rw [isFile_iff_walk wellFormed folder all (by simp)]
  refine ⟨checkText_toPath ?_ fits, location ++ [name], bytes, mode, ?_, standing, regular⟩
  · intro s member
    cases List.mem_append.1 member with
    | inl front => exact (allowed s (List.mem_append_left _ front)).zeroless
    | inr behind =>
        cases List.mem_append.1 behind with
        | inl still => exact idle s still ▸ by decide
        | inr last => exact List.mem_singleton.1 last ▸ isName.zeroless
  · rw [walk_stay idle, walk_name isName.toIsName isName.short (by simp [standing]), standing]
    rfl

end Below

end FileTree

end FileGraph
