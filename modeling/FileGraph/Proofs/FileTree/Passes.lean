import FileGraph.Proofs.FileTree.Leads
import Mathlib.Data.String.Basic

/-! # Through folders to a file

* `FileTree.Passes`: a path leads to a folder, so that all folders on its way exist.
* `FileTree.Leads.append`, `FileTree.steps_join`: a step behind the steps of a path.
* `FileTree.Passes.isFile_join`: a file is found behind a path to its folder.
* `FileTree.LinkFree.isFile_eq_false`, `FileTree.isFile_eq_false_of_long`: paths at which no file is
  found.
* `FileTree.LinkFree.isFile_eq`: a path of names.
-/

namespace FileGraph.FileTree

variable {tree : FileTree} {top : Entry} {links : Nat} {here place location : Location}
  {steps more : List String} {entries : List (String × Entry)} {path base : Path} {name : String}
  {bytes : ByteArray} {mode : Mode}

/-- A path leads to a folder. -/
structure Passes (tree : FileTree) (path : Path) (place : Location) : Prop where
  leads : Leads tree.top linkLimit (tree.origin path) (FileTree.steps path.text) place
  folder : ∃ entries, tree.top.find? place = some (.folder entries)

/-! ## Steps behind steps -/

theorem Leads.append (linkFree : LinkFree top) (front : Leads top links here steps place)
    (folder : top.find? place = some (.folder entries))
    (back : Leads top links place more location) : Leads top links here (steps ++ more) location := by
  induction front with
  | stop => exact back
  | stay _ ih => exact .stay (ih folder back)
  | up _ ih => exact .up (ih folder back)
  | enter isStep inner _ ih => exact .enter isStep inner (ih folder back)
  | last _ free =>
    obtain ⟨bytes, mode, file⟩ := free _ folder
    cases file
  | follow _ link _ _ => exact absurd link (linkFree _ _)

theorem Leads.of_append_here (linkFree : LinkFree top)
    (leads : Leads top links here (steps ++ ["."]) location) :
    Leads top links here steps location := by
  induction steps generalizing here with
  | nil =>
    -- The whole row of steps is named, so that the cases can be told apart by its first step.
    generalize shape : [] ++ ["."] = whole at leads
    cases leads with
    | stop => cases shape
    | stay leads => exact (List.cons.inj shape).2 ▸ leads
    | up _ => exact absurd (List.cons.inj shape).1 (by decide)
    | enter isStep _ _ => exact absurd (List.cons.inj shape).1.symm isStep.ne_here
    | last isStep _ => exact absurd (List.cons.inj shape).1.symm isStep.ne_here
    | follow _ link _ => exact absurd link (linkFree _ _)
  | cons step steps ih =>
    generalize shape : step :: steps ++ ["."] = whole at leads
    cases leads with
    | stop => cases shape
    | stay leads =>
      obtain ⟨rfl, rfl⟩ := List.cons.inj shape
      exact .stay (ih leads)
    | up leads =>
      obtain ⟨rfl, rfl⟩ := List.cons.inj shape
      exact .up (ih leads)
    | enter isStep folder leads =>
      obtain ⟨rfl, rfl⟩ := List.cons.inj shape
      exact .enter isStep folder (ih leads)
    | last _ _ => simp at shape
    | follow _ link _ => exact absurd link (linkFree _ _)

theorem Leads.zeroless (linkFree : LinkFree top) (wellNamed : WellNamed top)
    (leads : Leads top links here steps location)
    (folder : top.find? location = some (.folder entries)) :
    ∀ step ∈ steps, '\x00' ∉ step.toList := by
  induction leads with
  | stop => exact fun step member => absurd member List.not_mem_nil
  | stay _ ih => exact List.forall_mem_cons.2 ⟨by decide, ih folder⟩
  | up _ ih => exact List.forall_mem_cons.2 ⟨by decide, ih folder⟩
  | enter _ inner _ ih =>
    exact List.forall_mem_cons.2 ⟨(wellNamed _ _ inner _ (by simp)).zeroless, ih folder⟩
  | last _ free =>
    obtain ⟨bytes, mode, file⟩ := free _ folder
    cases file
  | follow _ link _ _ => exact absurd link (linkFree _ _)

/-! ## The steps of joined paths -/

/-- The segments of a text but the empty ones. -/
def segments (text : List Char) : List String :=
  ((Text.splitOn '/' text).filter (· ≠ [])).map String.ofList

theorem segments_append_slash (front back : List Char) :
    segments (front ++ '/' :: back) = segments front ++ segments back := by
  simp [segments, Text.splitOn_append_cons]

theorem segments_slashless (filled : name.toList ≠ []) (slashless : '/' ∉ name.toList) :
    segments name.toList = [name] := by
  rw [segments, Text.splitOn_eq, List.splitOn_eq_singleton slashless]
  simp [filled]

theorem steps_eq (text : String) : FileTree.steps text =
    segments text.toList ++ if text.toList.getLast? = some '/' then ["."] else [] := by
  rw [FileTree.steps, segments]
  split <;> simp

theorem steps_join (isName : Path.IsName name) (filled : base.text ≠ "") :
    FileTree.steps (base.join name).text = segments base.text.toList ++ [name] := by
  have own := segments_slashless isName.filled isName.slashless
  have last : ∀ front : List Char, (front ++ name.toList).getLast? ≠ some '/' := by
    intro front slash
    obtain ⟨inner, c, shape⟩ := (List.eq_nil_or_concat' name.toList).resolve_left isName.filled
    rw [shape, ← List.append_assoc, List.getLast?_concat, Option.some.injEq] at slash
    exact isName.slashless (shape ▸ by simp [slash])
  rw [steps_eq, Path.toList_text_join isName.head?_ne filled]
  split
  next ends =>
    obtain ⟨front, shape⟩ := List.getLast?_eq_some_iff.1 ends
    have whole : segments base.text.toList = segments front := by
      rw [shape, segments_append_slash]
      exact List.append_nil _
    rw [if_neg (last _), whole, shape, List.append_assoc, List.singleton_append,
      segments_append_slash, own, List.append_nil]
  next =>
    have apart := last (base.text.toList ++ ['/'])
    rw [List.append_assoc, List.singleton_append] at apart
    rw [if_neg apart, segments_append_slash, own, List.append_nil]

/-! ## Files behind paths -/

theorem origin_join (absolute : base.isAbsolute = true) (text : String) :
    tree.origin (base.join text) = tree.origin base := by
  rw [origin, origin, if_pos absolute, if_pos (Path.isAbsolute_join absolute text)]

theorem Passes.leads_segments (linkFree : LinkFree tree.top) (passes : Passes tree path place) :
    Leads tree.top linkLimit (tree.origin path) (segments path.text.toList) place := by
  have leads := passes.leads
  rw [steps_eq] at leads
  split at leads
  next => exact leads.of_append_here linkFree
  next => rwa [List.append_nil] at leads

/-- What stands in the folder that a path leads to is found behind the path. -/
theorem Passes.leads_join (linkFree : LinkFree tree.top) (wellFormed : tree.WellFormed)
    (absolute : base.isAbsolute = true) (passes : Passes tree base place)
    (standing : tree.top.find? (place ++ [name]) = some (.file bytes mode)) :
    Leads tree.top linkLimit (tree.origin (base.join name)) (FileTree.steps (base.join name).text)
      (place ++ [name]) := by
  have allowed := wellFormed _ _ standing name (by simp)
  obtain ⟨entries, folder⟩ := passes.folder
  have free : IsFree tree.top (place ++ [name]) := fun found held =>
    ⟨bytes, mode, Option.some.inj (held.symm.trans standing)⟩
  rw [origin_join absolute,
    steps_join allowed.toIsName (Path.text_ne_of_isAbsolute absolute)]
  exact (passes.leads_segments linkFree).append linkFree folder
    (.last ⟨allowed.ne_here, allowed.ne_up, allowed.short⟩ free)

theorem mem_of_mem_text {c : Char} {text : String} (member : c ∈ text.toList) :
    c = '/' ∨ ∃ segment ∈ segments text.toList, c ∈ segment.toList := by
  rw [← Text.joinWith_splitOn '/' text.toList, Text.joinWith_eq] at member
  refine (Text.mem_intercalate member).imp_right ?_
  rintro ⟨piece, found, inside⟩
  refine ⟨String.ofList piece, List.mem_map_of_mem (List.mem_filter.2 ⟨found, ?_⟩), by simpa⟩
  simpa using List.ne_nil_of_mem inside

theorem Passes.isFile_join (linkFree : LinkFree tree.top) (wellFormed : tree.WellFormed)
    (absolute : base.isAbsolute = true) (passes : Passes tree base place)
    (standing : tree.top.find? (place ++ [name]) = some (.file bytes mode))
    (regular : mode.isRegular = true)
    (fits : (base.join name).text.utf8ByteSize ≤ pathLimit) :
    tree.isFile (base.join name) = true := by
  have allowed := wellFormed _ _ standing name (by simp)
  have filled := Path.text_ne_of_isAbsolute (Path.isAbsolute_join absolute name)
  obtain ⟨entries, folder⟩ := passes.folder
  have zeroless := (passes.leads_segments linkFree).zeroless linkFree wellFormed folder
  have steps := steps_join allowed.toIsName (Path.text_ne_of_isAbsolute absolute)
  -- A zero byte would stand in one of the steps.
  have clean : '\x00' ∉ (base.join name).text.toList := by
    intro member
    obtain slash | ⟨segment, found, inside⟩ := mem_of_mem_text member
    · cases slash
    · have step : segment ∈ FileTree.steps (base.join name).text := by
        rw [steps_eq]
        exact List.mem_append_left _ found
      rw [steps, List.mem_append, List.mem_singleton] at step
      obtain earlier | rfl := step
      · exact zeroless segment earlier inside
      · exact allowed.zeroless inside
  have checked : checkText (base.join name) = .ok () := by
    rw [checkText, if_neg (by simpa using filled), if_neg (by simpa using clean),
      if_neg (Nat.not_lt.2 fits)]
  have leads := passes.leads_join linkFree wellFormed absolute standing
  exact isFile_iff_lookup.2
    ⟨place ++ [name], bytes, mode, lookup_eq_ok_iff.2 ⟨checked, leads, standing⟩, regular⟩

theorem Passes.normalize_eq (linkFree : LinkFree tree.top) (absolute : path.isAbsolute = true)
    (passes : Passes tree path place) : path.normalize = .rooted place := by
  have leads := passes.leads
  rw [origin, if_pos absolute] at leads
  rw [Path.normalize, components_eq_steps absolute]
  exact leads.foldl_push linkFree fun step => filled_of_mem_steps

/-! ## Paths at which no file is found -/

theorem isFile_eq_false_of_long (long : pathLimit < path.text.utf8ByteSize) :
    tree.isFile path = false := by
  rw [← Bool.not_eq_true, isFile_iff_lookup]
  rintro ⟨location, bytes, mode, led, -⟩
  have checked := (lookup_eq_ok_iff.1 led).1
  rw [checkText, if_pos long] at checked
  split at checked
  next => cases checked
  next => split at checked <;> cases checked

theorem LinkFree.isFile_eq_false (linkFree : LinkFree tree.top) (absolute : path.isAbsolute = true)
    (normal : path.normalize = .rooted location)
    (missing : ∀ bytes mode, mode.isRegular = true →
      tree.top.find? location ≠ some (.file bytes mode)) :
    tree.isFile path = false := by
  rw [← Bool.not_eq_true, isFile_iff_lookup]
  rintro ⟨found, bytes, mode, led, regular⟩
  have place := (linkFree.normalize_eq absolute led).symm.trans normal
  obtain rfl := Path.Lexical.rooted.inj place
  exact missing bytes mode regular (lookup_eq_ok_iff.1 led).2.2

/-! ## Paths of names -/

theorem Leads.of_names (nonempty : steps ≠ []) (names : ∀ step ∈ steps, IsStep step)
    (standing : top.find? (here ++ steps) = some (.file bytes mode)) :
    Leads top links here steps (here ++ steps) := by
  induction steps generalizing here with
  | nil => exact absurd rfl nonempty
  | cons step later ih =>
    obtain ⟨isStep, names⟩ := List.forall_mem_cons.1 names
    cases later with
    | nil => exact .last isStep fun found held =>
        ⟨bytes, mode, Option.some.inj (held.symm.trans standing)⟩
    | cons second later =>
      rw [List.append_cons] at standing ⊢
      obtain ⟨entries, folder⟩ := Entry.exists_folder_of_below standing
      exact .enter isStep folder (ih (List.cons_ne_nil _ _) names standing)

theorem Leads.eq_of_names (linkFree : LinkFree top) (names : ∀ step ∈ steps, IsStep step)
    (leads : Leads top links here steps location) : location = here ++ steps := by
  induction leads with
  | stop => exact (List.append_nil _).symm
  | stay _ _ => exact absurd rfl (names _ List.mem_cons_self).ne_here
  | up _ _ => exact absurd rfl (names _ List.mem_cons_self).ne_up
  | enter _ _ _ ih =>
    rw [ih fun step given => names step (List.mem_cons_of_mem _ given), ← List.append_cons]
  | last _ _ => rfl
  | follow _ link _ _ => exact absurd link (linkFree _ _)

/-- A path from the top that consists of names. -/
structure IsPlain (path : Path) : Prop where
  absolute : path.isAbsolute = true
  checked : checkText path = .ok ()
  nonempty : FileTree.steps path.text ≠ []
  names : ∀ step ∈ FileTree.steps path.text, IsStep step

theorem isPlain_iff : IsPlain path ↔ path.isAbsolute = true ∧ checkText path = .ok () ∧
    FileTree.steps path.text ≠ [] ∧ ∀ step ∈ FileTree.steps path.text, IsStep step := by
  constructor
  · intro plain
    exact ⟨plain.absolute, plain.checked, plain.nonempty, plain.names⟩
  · rintro ⟨absolute, checked, nonempty, names⟩
    exact ⟨absolute, checked, nonempty, names⟩

instance : DecidablePred IsPlain := fun _ => decidable_of_iff _ isPlain_iff.symm

theorem IsPlain.lookup_eq (plain : IsPlain path)
    (standing : tree.top.find? (FileTree.steps path.text) = some (.file bytes mode)) :
    tree.lookup path = .ok (FileTree.steps path.text, .file bytes mode) := by
  have leads : Leads tree.top linkLimit [] (FileTree.steps path.text)
      ([] ++ FileTree.steps path.text) :=
    .of_names plain.nonempty plain.names standing
  have top : tree.origin path = [] := if_pos plain.absolute
  exact lookup_eq_ok_iff.2 ⟨plain.checked, top ▸ leads, standing⟩

theorem LinkFree.isFile_eq (linkFree : LinkFree tree.top) (plain : IsPlain path) :
    tree.isFile path = match tree.top.find? (FileTree.steps path.text) with
      | some (.file _ mode) => mode.isRegular
      | _ => false := by
  have top : tree.origin path = [] := if_pos plain.absolute
  rw [Bool.eq_iff_iff, isFile_iff_lookup]
  constructor
  · rintro ⟨location, bytes, mode, led, regular⟩
    obtain ⟨-, leads, standing⟩ := lookup_eq_ok_iff.1 led
    have place := leads.eq_of_names linkFree plain.names
    rw [top, List.nil_append] at place
    rw [← place, standing]
    exact regular
  · intro file
    split at file
    next bytes mode standing => exact ⟨_, bytes, mode, plain.lookup_eq standing, file⟩
    next => cases file

/-! ## Idle steps -/

/-- The folder that one is in, again and again. -/
def stays : (count : Nat) → List Char
  | 0 => []
  | count + 1 => '.' :: '/' :: stays count

theorem segments_stays (count : Nat) (rest : List Char) :
    segments (stays count ++ rest) = List.replicate count "." ++ segments rest := by
  induction count with
  | zero => rfl
  | succ count ih =>
    have first : segments ['.'] = ["."] := by decide
    have split := segments_append_slash ['.'] (stays count ++ rest)
    rw [ih, first] at split
    exact split

theorem utf8Len_stays (count : Nat) : String.utf8Len (stays count) = 2 * count := by
  induction count with
  | zero => rfl
  | succ count ih =>
    rw [stays, String.utf8Len_cons, String.utf8Len_cons, ih]
    simp only [show Char.utf8Size '.' = 1 from rfl, show Char.utf8Size '/' = 1 from rfl]
    omega

theorem not_mem_stays {c : Char} (dot : c ≠ '.') (slash : c ≠ '/') (count : Nat) :
    c ∉ stays count := by
  induction count with
  | zero => exact List.not_mem_nil
  | succ count ih => simp [stays, dot, slash, ih]

theorem leads_stays {links : Nat} {place location : Location} {rest : List String} (count : Nat)
    (leads : Leads tree.top links place rest location) :
    Leads tree.top links place (List.replicate count "." ++ rest) location := by
  induction count with
  | zero => exact leads
  | succ count ih => exact .stay ih

end FileGraph.FileTree
