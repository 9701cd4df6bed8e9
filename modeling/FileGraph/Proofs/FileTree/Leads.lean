import FileGraph.Proofs.FileTree
import FileGraph.Proofs.Path.Join

/-! # Where steps lead

* `FileTree.Leads`: the steps of a path lead from a folder to a location, one rule for each kind of
  step.
* `FileTree.walk_eq_ok_iff`: walks follow these rules and succeed where they do.
* `FileTree.Leads.lands`: steps from a folder lead to a folder or in a folder under a name of no
  folder.
* `FileTree.LinkFree.normalize_eq`: without links a path leads where its normal form says.
-/

namespace FileGraph.FileTree

/-- A step under a name. -/
structure IsStep (step : String) : Prop where
  ne_here : step ≠ "."
  ne_up : step ≠ ".."
  short : step.utf8ByteSize ≤ nameLimit

theorem isStep_iff {step : String} :
    IsStep step ↔ step ≠ "." ∧ step ≠ ".." ∧ step.utf8ByteSize ≤ nameLimit := by
  constructor
  · intro isStep
    exact ⟨isStep.ne_here, isStep.ne_up, isStep.short⟩
  · rintro ⟨ne_here, ne_up, short⟩
    exact ⟨ne_here, ne_up, short⟩

instance : DecidablePred IsStep := fun _ => decidable_of_iff _ isStep_iff.symm

/-- Nothing but a file stands at a location. -/
def IsFree (top : Entry) (location : Location) : Prop :=
  ∀ found, top.find? location = some found → ∃ bytes mode, found = .file bytes mode

/-- Steps lead from the folder at `here` to a location. No more than `links` links are followed on
the way. -/
inductive Leads (top : Entry) : (links : Nat) → (here : Location) → List String → Location → Prop
    where
  | stop {links : Nat} {here : Location} : Leads top links here [] here
  | stay {links : Nat} {here location : Location} {rest : List String} :
      Leads top links here rest location → Leads top links here ("." :: rest) location
  | up {links : Nat} {here location : Location} {rest : List String} :
      Leads top links here.dropLast rest location → Leads top links here (".." :: rest) location
  | enter {links : Nat} {here location : Location} {step : String} {rest : List String}
      {entries : List (String × Entry)} :
      IsStep step → top.find? (here ++ [step]) = some (.folder entries) →
      Leads top links (here ++ [step]) rest location → Leads top links here (step :: rest) location
  | last {links : Nat} {here : Location} {step : String} :
      IsStep step → IsFree top (here ++ [step]) → Leads top links here [step] (here ++ [step])
  | follow {links : Nat} {here location : Location} {step target : String} {rest : List String} :
      IsStep step → top.find? (here ++ [step]) = some (.link target) →
      Leads top links (if (Path.mk target).isAbsolute then [] else here) (steps target ++ rest)
        location →
      Leads top (links + 1) here (step :: rest) location

variable {top : Entry} {links : Nat} {here location : Location} {steps : List String}

theorem Leads.of_walk (walked : walk top links here steps = .ok location) :
    Leads top links here steps location := by
  fun_induction walk top links here steps with
  | case1 links here =>
      obtain rfl := Except.ok.inj walked
      exact .stop
  | case2 links here rest ih => exact .stay (ih walked)
  | case3 links here rest notHere ih => exact .up (ih walked)
  | case4 => cases walked
  | case5 links here step notHere notUp short missing =>
      obtain rfl := Except.ok.inj walked
      exact .last ⟨notHere, notUp, Nat.le_of_not_lt short⟩ fun found standing => by
        cases missing.symm.trans standing
  | case6 => cases walked
  | case7 links here step rest notHere notUp short entries folder ih =>
      exact .enter ⟨notHere, notUp, Nat.le_of_not_lt short⟩ folder (ih walked)
  | case8 links here step notHere notUp short bytes mode file =>
      obtain rfl := Except.ok.inj walked
      exact .last ⟨notHere, notUp, Nat.le_of_not_lt short⟩ fun found standing =>
        ⟨bytes, mode, Option.some.inj (standing.symm.trans file)⟩
  | case9 => cases walked
  | case10 => cases walked
  | case11 here step rest notHere notUp short target link links ih =>
      simp only [dite_eq_ite] at ih
      exact .follow ⟨notHere, notUp, Nat.le_of_not_lt short⟩ link (ih walked)

theorem Leads.walk_eq (leads : Leads top links here steps location) :
    walk top links here steps = .ok location := by
  induction leads with
  | stop => exact walk_nil
  | stay _ ih => rw [walk, if_pos rfl, ih]
  | up _ ih => rw [walk, if_neg (by decide), if_pos rfl, ih]
  | enter isStep folder _ ih =>
      rw [walk, if_neg isStep.ne_here, if_neg isStep.ne_up, if_neg (Nat.not_lt.2 isStep.short),
        folder]
      exact ih
  | @last _ here step isStep free =>
      rw [walk, if_neg isStep.ne_here, if_neg isStep.ne_up, if_neg (Nat.not_lt.2 isStep.short)]
      cases standing : top.find? (here ++ [step]) with
      | none => rfl
      | some found =>
          obtain ⟨bytes, mode, rfl⟩ := free found standing
          rfl
  | follow isStep link _ ih =>
      rw [walk, if_neg isStep.ne_here, if_neg isStep.ne_up, if_neg (Nat.not_lt.2 isStep.short),
        link]
      exact ih

theorem walk_eq_ok_iff :
    walk top links here steps = .ok location ↔ Leads top links here steps location :=
  ⟨.of_walk, Leads.walk_eq⟩

/-! ## Where walks end -/

variable {entries : List (String × Entry)}

theorem find?_dropLast (standing : top.find? here = some (.folder entries)) :
    ∃ above, top.find? here.dropLast = some (.folder above) := by
  by_cases empty : here = []
  · exact ⟨entries, empty ▸ standing⟩
  · rw [← List.dropLast_append_getLast empty] at standing
    exact Entry.exists_folder_of_find?_append standing

/-- A link leads on from the top or from the folder that it is in. -/
theorem find?_origin (standing : top.find? here = some (.folder entries)) (isAbsolute : Bool) :
    ∃ inner, top.find? (if isAbsolute then [] else here) = some (.folder inner) := by
  cases isAbsolute with
  | true => exact Entry.exists_folder_of_find?_append (standing : top.find? ([] ++ here) = _)
  | false => exact ⟨entries, standing⟩

/-- Where a walk can end: at a folder, or in a folder under a name of no folder. -/
inductive Lands (top : Entry) : Location → Prop where
  | folder {location : Location} {entries : List (String × Entry)} :
      top.find? location = some (.folder entries) → Lands top location
  | free {folder : Location} {name : String} {entries : List (String × Entry)} :
      top.find? folder = some (.folder entries) → IsFree top (folder ++ [name]) →
      Lands top (folder ++ [name])

theorem Leads.lands (leads : Leads top links here steps location)
    (standing : top.find? here = some (.folder entries)) : Lands top location := by
  induction leads generalizing entries with
  | stop => exact .folder standing
  | stay _ ih => exact ih standing
  | up _ ih =>
      obtain ⟨above, folder⟩ := find?_dropLast standing
      exact ih folder
  | enter _ folder _ ih => exact ih folder
  | last _ free => exact .free standing free
  | follow _ _ _ ih =>
      obtain ⟨inner, folder⟩ := find?_origin standing _
      exact ih folder

/-! ## Steps and components -/

open FileGraph.Path (componentOf? Lexical)

theorem filled_of_mem_steps {text step : String} (member : step ∈ FileTree.steps text) :
    step ≠ "" := by
  have segment : ∀ s ∈ ((Text.splitOn '/' text.toList).filter (· ≠ [])).map String.ofList,
      s ≠ "" := by
    intro s given
    obtain ⟨piece, held, rfl⟩ := List.mem_map.1 given
    simpa [← String.toList_inj] using (List.mem_filter.1 held).2
  unfold FileTree.steps at member
  dsimp only at member
  split at member
  next =>
    cases List.mem_append.1 member with
    | inl own => exact segment step own
    | inr asked => exact List.mem_singleton.1 asked ▸ by decide
  next => exact segment step member

theorem components_eq_steps {path : Path} (absolute : path.isAbsolute = true) :
    path.components =
      .root :: (FileTree.steps path.text).filterMap fun step => componentOf? step.toList := by
  obtain ⟨rest, written⟩ := Path.isAbsolute_iff.1 absolute
  have kept : (((Text.splitOn '/' path.text.toList).filter (· ≠ [])).map String.ofList).filterMap
      (fun step => componentOf? step.toList) = (Text.splitOn '/' rest).filterMap componentOf? := by
    rw [written, Text.splitOn, if_pos rfl, List.filter_cons_of_neg (by simp), List.filterMap_map,
      List.filterMap_filter]
    refine List.filterMap_congr fun segment _ => ?_
    by_cases empty : segment = []
    · subst empty
      rfl
    · simp [empty]
  rw [Path.components_of_slash written, FileTree.steps]
  split
  next =>
    rw [List.filterMap_append, kept]
    exact congrArg _ (List.append_nil _).symm
  next => rw [kept]

/-! ## Trees without links -/

def LinkFree (top : Entry) : Prop :=
  ∀ location target, top.find? location ≠ some (.link target)

theorem linkFree_file (bytes : ByteArray) (mode : Mode) : LinkFree (.file bytes mode) := by
  intro location target link
  cases location with
  | nil => cases link
  | cons name later => cases link

theorem linkFree_folder (inner : ∀ entry ∈ entries, LinkFree entry.2) :
    LinkFree (.folder entries) := by
  intro location target link
  cases location with
  | nil => cases link
  | cons name later =>
      obtain ⟨child, standing, deeper⟩ := Option.bind_eq_some_iff.1 link
      obtain ⟨before, behind, rfl, -⟩ := List.lookup_eq_some_iff.1 standing
      exact inner (name, child) (List.mem_append_right before List.mem_cons_self) later target deeper

theorem IsStep.componentOf?_eq {step : String} (isStep : IsStep step) (filled : step ≠ "") :
    componentOf? step.toList = some (.name step) := by
  have here : step.toList ≠ ['.'] := fun same =>
    isStep.ne_here (String.toList_inj.1 (same.trans (by decide)))
  have up : step.toList ≠ ['.', '.'] := fun same =>
    isStep.ne_up (String.toList_inj.1 (same.trans (by decide)))
  simp [componentOf?, Path.isIdle, filled, here, up]

/-- Without links every step changes the location as its component changes a normal form. -/
theorem Leads.foldl_push (linkFree : LinkFree top) (filled : ∀ step ∈ steps, step ≠ "")
    (leads : Leads top links here steps location) :
    (steps.filterMap fun step => componentOf? step.toList).foldl Lexical.push (.rooted here) =
      .rooted location := by
  induction leads with
  | stop => rfl
  | stay _ ih => exact ih fun step given => filled step (List.mem_cons_of_mem _ given)
  | up _ ih => exact ih fun step given => filled step (List.mem_cons_of_mem _ given)
  | enter isStep _ _ ih =>
      rw [List.filterMap_cons, isStep.componentOf?_eq (filled _ List.mem_cons_self)]
      exact ih fun step given => filled step (List.mem_cons_of_mem _ given)
  | last isStep _ =>
      rw [List.filterMap_cons, isStep.componentOf?_eq (filled _ List.mem_cons_self)]
      rfl
  | follow _ link _ _ => exact absurd link (linkFree _ _)

theorem lookup_eq_ok_iff {tree : FileTree} {path : Path} {found : Entry} :
    tree.lookup path = .ok (location, found) ↔
      checkText path = .ok () ∧
        Leads tree.top linkLimit (tree.origin path) (FileTree.steps path.text) location ∧
        tree.top.find? location = some found := by
  rw [← walk_eq_ok_iff, lookup, locate]
  cases checkText path with
  | error fault => simp [bind, Except.bind]
  | ok _ =>
      cases walk tree.top linkLimit (tree.origin path) (FileTree.steps path.text) with
      | error fault => simp [bind, Except.bind]
      | ok location' =>
          simp only [bind, Except.bind, true_and, Except.ok.injEq]
          cases standing : tree.top.find? location' with
          | none =>
              constructor
              · intro failed
                cases failed
              · rintro ⟨rfl, held⟩
                cases standing.symm.trans held
          | some entry =>
              constructor
              · intro led
                obtain ⟨rfl, rfl⟩ := Prod.mk.inj (Except.ok.inj led)
                exact ⟨rfl, standing⟩
              · rintro ⟨rfl, held⟩
                rw [Option.some.inj (standing.symm.trans held)]

theorem isFile_iff_lookup {tree : FileTree} {path : Path} :
    tree.isFile path = true ↔
      ∃ location bytes mode, tree.lookup path = .ok (location, .file bytes mode) ∧
        mode.isRegular = true := by
  unfold isFile
  split
  next location bytes mode led => simp [led]
  next other =>
    refine iff_of_false Bool.false_ne_true ?_
    rintro ⟨location, bytes, mode, led, -⟩
    exact other location bytes mode led

theorem canonicalize_eq_ok_iff {tree : FileTree} {path : Path} :
    tree.canonicalize path = .ok location ↔ tree.locate path = .ok location ∧
      ∀ place ∈ location :: visited tree.top linkLimit (tree.origin path) (FileTree.steps path.text),
        fits place.toPath = true := by
  rw [canonicalize]
  cases tree.locate path with
  | error fault => simp [bind, Except.bind]
  | ok found =>
      simp only [bind, Except.bind, ← List.all_eq_true]
      constructor
      · intro canonical
        split at canonical
        next fits =>
          obtain rfl := Except.ok.inj canonical
          exact ⟨rfl, fits⟩
        next => cases canonical
      · rintro ⟨same, fits⟩
        obtain rfl := Except.ok.inj same
        rw [if_pos fits]

theorem canonicalize_eq_lookup {tree : FileTree} {path : Path} {place : Location} {found : Entry}
    (canonical : tree.canonicalize path = .ok place)
    (led : tree.lookup path = .ok (location, found)) : place = location := by
  obtain ⟨located, -⟩ := canonicalize_eq_ok_iff.1 canonical
  rw [lookup, located] at led
  simp only [bind, Except.bind] at led
  split at led
  next => cases led
  next => exact (Prod.mk.inj (Except.ok.inj led)).1

theorem LinkFree.normalize_eq {tree : FileTree} {path : Path} {found : Entry}
    (linkFree : LinkFree tree.top) (absolute : path.isAbsolute = true)
    (led : tree.lookup path = .ok (location, found)) : path.normalize = .rooted location := by
  obtain ⟨-, leads, -⟩ := lookup_eq_ok_iff.1 led
  rw [origin, if_pos absolute] at leads
  rw [Path.normalize, components_eq_steps absolute]
  exact leads.foldl_push linkFree fun step => filled_of_mem_steps

/-! ## The folder `p` -/

section TopFolder

variable {tree : FileTree} {entries : List (String × Entry)}
  (standing : tree.top.find? ["p"] = some (.folder entries))

include standing

theorem lookup_topFolder : tree.lookup ⟨"/p"⟩ = .ok (["p"], .folder entries) := by
  have steps : FileTree.steps "/p" = ["p"] := by decide
  refine lookup_eq_ok_iff.2 ⟨by decide, ?_, standing⟩
  rw [steps]
  exact .enter (by decide) standing .stop

theorem canonicalize_topFolder : tree.canonicalize ⟨"/p"⟩ = .ok ["p"] := by
  have steps : FileTree.steps "/p" = ["p"] := by decide
  have visits : visited tree.top linkLimit [] ["p"] = [["p"]] := by
    rw [visited, if_neg (by decide), if_neg (by decide), List.nil_append, standing, visited]
  obtain ⟨checked, leads, -⟩ := lookup_eq_ok_iff.1 (lookup_topFolder standing)
  refine canonicalize_eq_ok_iff.2 ⟨?_, ?_⟩
  · rw [locate, checked]
    exact leads.walk_eq
  · have origin : tree.origin ⟨"/p"⟩ = [] := if_pos (by decide)
    rw [steps, origin, visits]
    exact List.forall_mem_cons.2 ⟨by decide, List.forall_mem_singleton.2 (by decide)⟩

end TopFolder

/-- A tree with nothing but the folder `p` at its top. -/
def single (entries : List (String × Entry)) : FileTree :=
  { top := .folder [("p", .folder entries)], here := [] }

theorem lookup_single (entries : List (String × Entry)) :
    (single entries).lookup ⟨"/p"⟩ = .ok (["p"], .folder entries) :=
  lookup_topFolder rfl

theorem canonicalize_single (entries : List (String × Entry)) :
    (single entries).canonicalize ⟨"/p"⟩ = .ok ["p"] :=
  canonicalize_topFolder (show (single entries).top.find? ["p"] = some (.folder entries) from rfl)

end FileGraph.FileTree
