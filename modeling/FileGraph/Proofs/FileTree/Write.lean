import FileGraph.Proofs.FileTree.Leads

/-! # A written text is read back

* `Entry.find?_insert_self`, `Entry.find?_insert_of_ne`: what stands where in a tree with one more
  file.
* `FileTree.Leads.insert`: the steps to the place of a new file lead there with the file in its
  place.
* `Mode.IsFaithful`, `FileTree.Stores`, `FileTree.readText_fill`: reading after writing.
-/

namespace FileGraph

namespace Entry

/-- The same entry, or both of them folders. -/
inductive Alike : Entry → Entry → Prop where
  | refl (entry : Entry) : Alike entry entry
  | folders (entries entries' : List (String × Entry)) : Alike (folder entries) (folder entries')

theorem find?_insert_self (entry : Entry) (names : List String) (new : Entry) :
    (entry.insert names new).find? names = some new := by
  induction names generalizing entry with
  | nil => rfl
  | cons name names ih =>
      rw [insert, find?, child?, entries, Text.Keyed.lookup_put, Option.bind_some, ih]

/-- A new file in a folder leaves what stands elsewhere alone; folders stay folders. -/
theorem find?_insert_of_ne {entry new found : Entry} {names other : List String} {name : String}
    {entries : List (String × Entry)} (standing : entry.find? names = some (.folder entries))
    (free : FileTree.IsFree entry (names ++ [name])) (apart : other ≠ names ++ [name])
    (given : entry.find? other = some found) :
    ∃ found', (entry.insert (names ++ [name]) new).find? other = some found' ∧
      Alike found found' := by
  induction names generalizing entry other with
  | nil =>
      obtain rfl := Option.some.inj standing
      cases other with
      | nil =>
          obtain rfl := Option.some.inj given
          exact ⟨_, rfl, .folders _ _⟩
      | cons first later =>
          by_cases same : first = name
          · -- Under a file nothing stands.
            subst same
            obtain ⟨child, held, below⟩ := Option.bind_eq_some_iff.1 given
            obtain ⟨bytes, mode, rfl⟩ := free child (by rw [List.nil_append, find?, held]; rfl)
            cases later with
            | nil => exact absurd rfl apart
            | cons next later => cases below
          · refine ⟨found, ?_, .refl found⟩
            rw [List.nil_append, insert, find?, child?, Entry.entries,
              Text.Keyed.lookup_put_of_ne _ _ same]
            exact given
  | cons step names ih =>
      obtain ⟨outer, rfl⟩ := exists_folder_of_find?_cons standing
      obtain ⟨child, held, deeper⟩ := Option.bind_eq_some_iff.1 standing
      cases other with
      | nil =>
          obtain rfl := Option.some.inj given
          exact ⟨_, rfl, .folders _ _⟩
      | cons first later =>
          rw [List.cons_append, insert, find?, child?, Entry.entries]
          -- Of what is in the folder only the entry under `step` is another one.
          by_cases same : first = step
          · subst same
            rw [Entry.find?, held, Option.bind_some] at given
            rw [Text.Keyed.lookup_put, held, Option.bind_some, Option.getD_some]
            refine ih deeper (fun found standing => free found ?_)
              (fun equal => apart (equal ▸ rfl)) given
            rw [List.cons_append, Entry.find?, held, Option.bind_some, standing]
          · rw [Text.Keyed.lookup_put_of_ne _ _ same]
            exact ⟨found, given, .refl found⟩

end Entry

/-- A file that can be read, and that holds whatever is written to it. -/
structure Mode.IsFaithful (mode : Mode) : Prop where
  readable : mode.isReadable = true
  keeps : ∀ bytes, mode.keeps bytes = bytes

theorem Mode.isFaithful_plain : Mode.plain.IsFaithful := ⟨rfl, fun _ => rfl⟩

namespace FileTree

variable {top : Entry} {links : Nat} {here location : Location} {steps : List String}

/-- A tree keeps what it holds but for its files. -/
def Keeps (top top' : Entry) : Prop :=
  ∀ other found, (∀ bytes mode, found ≠ .file bytes mode) → top.find? other = some found →
    ∃ found', top'.find? other = some found' ∧ Entry.Alike found found'

theorem Lands.keeps (lands : Lands top location)
    (noFolder : ∀ entries, top.find? location ≠ some (.folder entries)) (new : Entry) :
    Keeps top (top.insert location new) := by
  intro other found noFile given
  cases lands with
  | folder standing => exact absurd standing (noFolder _)
  | free standing free =>
      refine Entry.find?_insert_of_ne standing free ?_ given
      rintro rfl
      obtain ⟨bytes, mode, isFile⟩ := free found given
      exact noFile bytes mode isFile

/-- Steps lead to a location when a file stands there, if they do without it. -/
theorem Leads.insert {bytes : ByteArray} {mode : Mode}
    (leads : Leads top links here steps location)
    (keeps : Keeps top (top.insert location (.file bytes mode))) :
    Leads (top.insert location (.file bytes mode)) links here steps location := by
  induction leads with
  | stop => exact .stop
  | stay _ ih => exact .stay (ih keeps)
  | up _ ih => exact .up (ih keeps)
  | enter isStep found _ ih =>
      obtain ⟨found', standing, alike⟩ := keeps _ _ (fun _ _ same => by cases same) found
      cases alike with
      | refl => exact .enter isStep standing (ih keeps)
      | folders => exact .enter isStep standing (ih keeps)
  | last isStep _ =>
      refine .last isStep fun found given => ⟨bytes, mode, ?_⟩
      exact Option.some.inj (given.symm.trans (Entry.find?_insert_self _ _ _))
  | follow isStep found _ ih =>
      obtain ⟨found', standing, alike⟩ := keeps _ _ (fun _ _ same => by cases same) found
      cases alike with
      | refl => exact .follow isStep standing (ih keeps)

variable {tree saved : FileTree} {path : Path}

/-- The folder from which relative paths are read is there. -/
def HasHere (tree : FileTree) : Prop :=
  ∃ entries, tree.top.find? tree.here = some (.folder entries)

theorem writable_eq_ok_iff :
    tree.writable path = .ok location ↔ checkText path = .ok () ∧
      path.text.toList.getLast? ≠ some '/' ∧
      Leads tree.top linkLimit (tree.origin path) (FileTree.steps path.text) location ∧
      (∀ entries, tree.top.find? location ≠ some (.folder entries)) ∧
      (tree.modeAt location).isWritable = true := by
  unfold FileTree.writable
  cases checked : checkText path with
  | error fault => simp [bind, Except.bind]
  | ok _ =>
      simp only [bind, Except.bind, true_and]
      split
      next ending =>
        -- A path that ends in a slash is refused, whatever its folder is.
        split <;> simp [ending]
      next unended =>
        rw [← walk_eq_ok_iff]
        cases walked : walk tree.top linkLimit (tree.origin path) (FileTree.steps path.text) with
        | error fault => simp
        | ok found =>
            simp only [Except.ok.injEq]
            split
            next entries standing =>
              refine iff_of_false nofun ?_
              rintro ⟨-, rfl, noFolder, -⟩
              exact noFolder entries standing
            next bytes mode standing =>
              split
              next writable =>
                rw [Except.ok.injEq]
                refine ⟨?_, fun ⟨_, same, _⟩ => same⟩
                rintro rfl
                simp [unended, standing, modeAt, writable]
              next closed =>
                refine iff_of_false nofun ?_
                rintro ⟨-, rfl, -, writable⟩
                rw [modeAt, standing] at writable
                exact closed writable
            next noFolder noFile =>
              rw [Except.ok.injEq]
              refine ⟨?_, fun ⟨_, same, _⟩ => same⟩
              rintro rfl
              refine ⟨unended, rfl, noFolder, ?_⟩
              rw [modeAt]
              split
              next bytes mode standing => exact absurd standing (noFile bytes mode)
              next => rfl

/-- A file can be written where a path leads, and what is written to it can be read from it. -/
def Stores (tree : FileTree) (path : Path) : Prop :=
  ∃ location, tree.writable path = .ok location ∧ (tree.modeAt location).IsFaithful

section Place

variable (hasHere : tree.HasHere) (writable : tree.writable path = .ok location)

include hasHere writable

theorem keeps_place (new : Entry) : Keeps tree.top (tree.place location new).top := by
  obtain ⟨-, -, leads, noFolder, -⟩ := writable_eq_ok_iff.1 writable
  obtain ⟨entries, standing⟩ := hasHere
  obtain ⟨inner, origin⟩ := find?_origin standing path.isAbsolute
  exact (leads.lands origin).keeps noFolder new

theorem hasHere_place (new : Entry) : (tree.place location new).HasHere := by
  have keeps := keeps_place hasHere writable new
  obtain ⟨entries, standing⟩ := hasHere
  obtain ⟨found, standing', alike⟩ := keeps _ _ (fun _ _ same => by cases same) standing
  cases alike with
  | refl => exact ⟨_, standing'⟩
  | folders => exact ⟨_, standing'⟩

theorem lookup_fill (bytes : ByteArray) :
    (tree.fill location bytes).lookup path =
      .ok (location, .file ((tree.modeAt location).keeps bytes) (tree.modeAt location)) := by
  obtain ⟨checked, -, leads, -⟩ := writable_eq_ok_iff.1 writable
  refine lookup_eq_ok_iff.2 ⟨checked, leads.insert ?_, Entry.find?_insert_self _ _ _⟩
  exact keeps_place hasHere writable _

theorem writable_fill (bytes : ByteArray) :
    (tree.fill location bytes).writable path = .ok location ∧
      (tree.fill location bytes).modeAt location = tree.modeAt location := by
  have standing := Entry.find?_insert_self tree.top location
    (.file ((tree.modeAt location).keeps bytes) (tree.modeAt location))
  have mode : (tree.fill location bytes).modeAt location = tree.modeAt location := by
    rw [modeAt, fill, place, standing]
  obtain ⟨checked, unended, leads, -, writes⟩ := writable_eq_ok_iff.1 writable
  refine ⟨writable_eq_ok_iff.2 ⟨checked, unended, leads.insert ?_, ?_, mode.symm ▸ writes⟩, mode⟩
  · exact keeps_place hasHere writable _
  · intro entries folder
    cases standing.symm.trans folder

theorem hasHere_fill (bytes : ByteArray) : (tree.fill location bytes).HasHere :=
  hasHere_place hasHere writable _

/-- A text that is written to a file is read from it, if the file keeps it and is open to reading. -/
theorem readText_fill (faithful : (tree.modeAt location).IsFaithful) (text : String) :
    (tree.fill location text.toUTF8).readText path = .ok text := by
  have valid : String.fromUTF8? text.toUTF8 = some text := dif_pos text.isValidUTF8
  rw [readText, lookup_fill hasHere writable]
  simp only [bind, Except.bind, faithful.readable, faithful.keeps, valid, if_true]

end Place

theorem Stores.fill (stores : tree.Stores path) (hasHere : tree.HasHere)
    (writable : tree.writable path = .ok location) (bytes : ByteArray) :
    (tree.fill location bytes).Stores path := by
  obtain ⟨location', writable', faithful⟩ := stores
  obtain rfl := Except.ok.inj (writable'.symm.trans writable)
  obtain ⟨again, mode⟩ := writable_fill hasHere writable bytes
  exact ⟨_, again, mode.symm ▸ faithful⟩

end FileTree

end FileGraph
