import FileGraph.Proofs.Path.Parent
import Mathlib.Data.Set.Finite.Lattice

/-! # Normal forms

A path is normalised component by component, by a machine that keeps what it has read so far in
normal form. How the machine goes on from any state is the same for a path and for its normal form.

* `Path.Lexical.IsProper`, `Path.isProper_normalize`: the names in a normal form are names of the path.
* `Path.Lexical.components_toPath`: a normal form that is written says what the normal form says.
* `Path.Lexical.foldl_push_push`, `Path.foldl_push_normalize`: one component, and a whole path.
* `Path.normalize_join`, `Path.normalize_toPath_normalize`: joined paths, and a second normalisation.
* `Path.IsNormal`, `Path.isNormal_normalize`: what stands where in a written normal form.
* `Path.namesFrom`: the names that a path leads to from a folder, segment by segment.
* `Path.normalize_canonical`: the laws together; two paths have one normal form where they lead to the
  same names from every folder.
-/

namespace FileGraph.Path

open Text (splitOn joinWith)

variable {p q : Path} {name : String} {names : List String} {l m : Lexical} {c : Component}

/-! ## Names of a path -/

theorem isName_of_componentOf? {segment : List Char} (slashless : '/' ∉ segment)
    (own : componentOf? segment = some (.name name)) : IsName name := by
  unfold componentOf? at own
  split at own
  next => cases own
  next busy =>
    split at own
    next => cases own
    next apart =>
      obtain rfl := Component.name.inj (Option.some.inj own)
      have filled : segment ≠ [] ∧ segment ≠ ['.'] := by simpa [isIdle] using busy
      refine ⟨⟨by simpa using filled.1, by simpa using slashless⟩, ?_, ?_⟩
      · intro same
        exact filled.2 (by rw [← String.toList_ofList (l := segment), same]; decide)
      · intro same
        exact apart (by rw [← String.toList_ofList (l := segment), same]; decide)

theorem isName_of_mem_components (member : Component.name name ∈ p.components) : IsName name := by
  obtain begins | behind := List.mem_append.1 member
  · cases start : p.layout.1 <;> simp [start, Start.components] at begins
  · by_cases empty : p.text = ""
    · obtain ⟨text⟩ := p
      obtain rfl : text = "" := empty
      cases behind
    · obtain ⟨segment, held, own⟩ := List.mem_filterMap.1 behind
      exact isName_of_componentOf? ((isLayout_layout empty).slashless segment held) own

theorem root_not_mem_filterMap (segments : List (List Char)) :
    Component.root ∉ segments.filterMap componentOf? := by
  intro member
  obtain ⟨segment, -, own⟩ := List.mem_filterMap.1 member
  unfold componentOf? at own
  split at own
  next => cases own
  next => split at own <;> cases own

theorem layout_eq_root_iff : p.layout.1 = .root ↔ p.isAbsolute = true := by
  rw [isAbsolute_iff]
  unfold layout
  split
  next rest written => simp [written]
  next apart =>
    have relative : ¬ ∃ rest, p.text.toList = '/' :: rest := fun ⟨rest, written⟩ => apart rest written
    split <;> simp [relative]

theorem root_mem_components_iff : Component.root ∈ p.components ↔ p.isAbsolute = true := by
  rw [components, List.mem_append, or_iff_left (root_not_mem_filterMap _), ← layout_eq_root_iff]
  cases p.layout.1 <;> simp [Start.components]

namespace Lexical

/-- The names in a normal form are names of files. -/
def IsProper (l : Lexical) : Prop :=
  ∀ name ∈ l.names, IsName name

theorem names_push_subset (l : Lexical) (c : Component) :
    ∀ name ∈ (l.push c).names, name ∈ l.names ∨ c = .name name := by
  intro name member
  cases c with
  | root => cases l <;> cases member
  | here => cases l <;> exact .inl member
  | up =>
    cases l with
    | rooted front => exact .inl (List.mem_of_mem_dropLast member)
    | loose climbs front =>
      cases front with
      | nil => cases member
      | cons first later => exact .inl (List.mem_of_mem_dropLast member)
  | name own =>
    have shape : (l.push (.name own)).names = l.names ++ [own] := by cases l <;> rfl
    rw [shape, List.mem_append, List.mem_singleton] at member
    exact member.imp_right fun same => congrArg _ same.symm

theorem isProper_foldl_push {components : List Component} (proper : l.IsProper)
    (own : ∀ name, .name name ∈ components → IsName name) :
    (components.foldl push l).IsProper := by
  induction components generalizing l with
  | nil => exact proper
  | cons c later ih =>
    refine ih (fun name member => ?_) fun name inside => own name (List.mem_cons_of_mem _ inside)
    obtain before | rfl := names_push_subset l c name member
    · exact proper name before
    · exact own name List.mem_cons_self

end Lexical

theorem isProper_normalize (p : Path) : p.normalize.IsProper :=
  Lexical.isProper_foldl_push (fun _ member => absurd member List.not_mem_nil)
    fun _ => isName_of_mem_components

/-! ## Normal forms that are written -/

namespace Lexical

def start : Lexical → Start
  | rooted _ => .root
  | loose _ _ => .plain

def segments : Lexical → List String
  | rooted names => names
  | loose climbs names => List.replicate climbs ".." ++ names

theorem toPath_eq_ofLayout (l : Lexical) :
    l.toPath = ofLayout l.start (l.segments.map (·.toList)) := by
  cases l with
  | rooted names => exact congrArg Path.mk (String.toList_inj.1 (by simp [Text.joinWith_eq, segments]))
  | loose climbs names =>
    exact congrArg Path.mk (String.toList_inj.1 (by simp [Text.joinWith_eq, segments]))

theorem IsProper.isLayout (proper : l.IsProper) :
    IsLayout l.start (l.segments.map (·.toList)) := by
  have each : ∀ segment ∈ l.segments, segment = ".." ∨ IsName segment := by
    cases l with
    | rooted names => exact fun segment member => .inr (proper segment member)
    | loose climbs names =>
      intro segment member
      obtain up | own := List.mem_append.1 member
      · exact .inl (List.eq_of_mem_replicate up)
      · exact .inr (proper segment own)
  have facts : ∀ segment ∈ l.segments.map (·.toList),
      '/' ∉ segment ∧ segment ≠ [] ∧ segment ≠ ['.'] := by
    refine List.forall_mem_map.2 fun segment member => ?_
    obtain rfl | isName := each segment member
    · decide
    · refine ⟨isName.slashless, isName.filled, fun same => isName.ne_here ?_⟩
      exact String.toList_inj.1 (same.trans (by decide))
  exact ⟨fun segment member => (facts segment member).1,
    fun _ first begins => (facts first (List.mem_of_mem_head? begins)).2⟩

theorem IsProper.components_toPath (proper : l.IsProper) : l.toPath.components = l.components := by
  have own : ∀ names : List String, (∀ name ∈ names, IsName name) →
      (names.map (·.toList)).filterMap componentOf? = names.map .name := by
    intro names isName
    rw [List.filterMap_map]
    exact filterMap_componentOf? isName
  rw [toPath_eq_ofLayout, components_ofLayout proper.isLayout]
  cases l with
  | rooted names => exact congrArg _ (own names proper)
  | loose climbs names =>
    have ups : ((List.replicate climbs "..").map (·.toList)).filterMap componentOf? =
        List.replicate climbs .up := by
      rw [List.map_replicate, List.filterMap_replicate_of_some (b := .up) (by decide)]
    rw [segments, List.map_append, List.filterMap_append, ups, own names proper]
    rfl

theorem IsProper.isAbsolute_toPath (proper : l.IsProper) :
    l.toPath.isAbsolute = true ↔ ∃ names, l = rooted names := by
  rw [← root_mem_components_iff, proper.components_toPath]
  cases l <;> simp [components]

/-! ## The machine -/

theorem push_up_push_name (l : Lexical) (name : String) : (l.push (.name name)).push .up = l := by
  cases l with
  | rooted names => simp [push]
  | loose climbs names =>
    obtain ⟨first, later, shape⟩ : ∃ first later, names ++ [name] = first :: later :=
      List.exists_cons_of_ne_nil (by simp)
    simp only [push, shape]
    rw [← shape, List.dropLast_concat]

theorem components_push_name (l : Lexical) (name : String) :
    (l.push (.name name)).components = l.components ++ [.name name] := by
  cases l <;> simp [push, components]

theorem components_foldl_push (l : Lexical) (names : List String) :
    ((names.map .name).foldl push l).components = l.components ++ names.map .name := by
  induction names generalizing l with
  | nil => simp
  | cons name later ih => rw [List.map_cons, List.foldl_cons, ih, components_push_name,
      List.append_assoc, List.singleton_append]

/-- A component that is read after others changes any state as it changes the one they lead to. -/
theorem foldl_push_push (l m : Lexical) (c : Component) :
    (m.push c).components.foldl push l = (m.components.foldl push l).push c := by
  cases c with
  | root => cases m <;> simp [push, components]
  | here => cases m <;> simp [push]
  | name name => rw [components_push_name, List.foldl_append, List.foldl_cons, List.foldl_nil]
  | up =>
    -- Either there is a name that is taken back, or there is none and the path climbs.
    obtain ⟨before, name, rfl⟩ | none :
        (∃ (before : Lexical) (name : String), m = before.push (.name name)) ∨ m.names = [] := by
      obtain none | ⟨front, last, shape⟩ := List.eq_nil_or_concat' m.names
      · exact .inr none
      · cases m with
        | rooted names => exact .inl ⟨rooted front, last, congrArg rooted shape⟩
        | loose climbs names => exact .inl ⟨loose climbs front, last, congrArg (loose climbs) shape⟩
    · rw [push_up_push_name, components_push_name, List.foldl_append, List.foldl_cons, List.foldl_nil,
        push_up_push_name]
    · cases m with
      | rooted names =>
        obtain rfl : names = [] := none
        cases l <;> rfl
      | loose climbs names =>
        obtain rfl : names = [] := none
        simp [push, components, List.replicate_succ']

end Lexical

theorem foldl_push_normalize (l : Lexical) (p : Path) :
    p.normalize.components.foldl Lexical.push l = p.components.foldl Lexical.push l := by
  rw [normalize]
  -- From the end: the last component is read in the state that the others lead to.
  induction p.components using List.reverseRecOn with
  | nil => rfl
  | append_singleton before last ih =>
    rw [List.foldl_concat, List.foldl_concat, Lexical.foldl_push_push, ih]

theorem normalize_toPath_normalize (p : Path) : p.normalize.toPath.normalize = p.normalize := by
  conv_lhs => rw [normalize, (isProper_normalize p).components_toPath, foldl_push_normalize]
  rfl

/-! ## Joined paths -/

theorem foldl_push_of_isAbsolute (absolute : p.isAbsolute = true) (l : Lexical) :
    p.components.foldl Lexical.push l = p.normalize := by
  obtain ⟨rest, written⟩ := isAbsolute_iff.1 absolute
  rw [normalize, components_of_slash written]
  cases l <;> rfl

theorem foldl_push_of_relative (relative : p.text.toList.head? ≠ some '/') (l : Lexical) :
    p.components.foldl Lexical.push l =
      ((splitOn '/' p.text.toList).filterMap componentOf?).foldl Lexical.push l := by
  have here : componentOf? ['.'] = none := by decide
  rw [components_of_ne_slash relative]
  split
  next later cut =>
    rw [cut, List.filterMap_cons_none here]
    cases l <;> rfl
  next => rfl

theorem normalize_join (base : Path) (text : String) :
    (base.join text).normalize = (Path.mk text).components.foldl Lexical.push base.normalize := by
  by_cases absolute : (Path.mk text).isAbsolute = true
  · rw [foldl_push_of_isAbsolute absolute, join, absolute, Bool.true_or, if_pos rfl]
  · have relative : text.toList.head? ≠ some '/' := by simpa [isAbsolute] using absolute
    by_cases filled : base.text = ""
    · obtain ⟨own⟩ := base
      obtain rfl : own = "" := filled
      have joined : (Path.mk "").join text = ⟨text⟩ := by simp [join]
      rw [joined]
      rfl
    · have cut : (base.join text).components.foldl Lexical.push (.loose 0 []) =
          (base.components ++ (splitOn '/' text.toList).filterMap componentOf?).foldl Lexical.push
            (.loose 0 []) := by
        have written := toList_text_join relative filled
        split at written
        next ends =>
          -- The slash that the first path ends in is the one between the two.
          obtain ⟨front, shape⟩ := List.getLast?_eq_some_iff.1 ends
          rw [shape, List.append_assoc, List.singleton_append] at written
          by_cases top : front = []
          · subst top
            rw [components_of_slash written, components_of_slash shape]
            rfl
          · have above : (Path.mk (String.ofList front)).text.toList = front := by simp
            rw [← above] at written shape top
            rw [components_of_append top written, components_of_append top shape]
            simp [splitOn, componentOf?, isIdle]
        next => rw [components_of_append (by simpa using filled) written]
      rw [normalize, cut, List.foldl_append, ← normalize, foldl_push_of_relative relative]

/-! ## What stands where -/

/-- No segment of a path is `.`, and the segments `..` stand together in front of all others, if the
path does not begin at the root, and nowhere if it does. -/
structure IsNormal (p : Path) : Prop where
  hereless : ['.'] ∉ splitOn '/' p.text.toList
  climbing : ∃ climbs rest, splitOn '/' p.text.toList = List.replicate climbs ['.', '.'] ++ rest ∧
    ['.', '.'] ∉ rest
  rooted : p.isAbsolute = true → ['.', '.'] ∉ splitOn '/' p.text.toList

theorem splitOn_joinWith {segments : List (List Char)} (nonempty : segments ≠ [])
    (slashless : ∀ segment ∈ segments, '/' ∉ segment) :
    splitOn '/' (joinWith '/' segments) = segments := by
  rw [Text.splitOn_eq, Text.joinWith_eq, List.splitOn_intercalate '/' slashless nonempty]

theorem IsName.toList_ne (isName : IsName name) :
    name.toList ≠ ['.'] ∧ name.toList ≠ ['.', '.'] := by
  constructor
  · intro same
    exact isName.ne_here (String.toList_inj.1 (same.trans (by decide)))
  · intro same
    exact isName.ne_up (String.toList_inj.1 (same.trans (by decide)))

theorem not_mem_names (isName : ∀ name ∈ names, IsName name) :
    ['.'] ∉ names.map (·.toList) ∧ ['.', '.'] ∉ names.map (·.toList) := by
  constructor
  · intro member
    obtain ⟨name, given, same⟩ := List.mem_map.1 member
    exact (isName name given).toList_ne.1 same
  · intro member
    obtain ⟨name, given, same⟩ := List.mem_map.1 member
    exact (isName name given).toList_ne.2 same

theorem mem_splitOn_joinWith {segments : List (List Char)} {segment : List Char}
    (slashless : ∀ segment ∈ segments, '/' ∉ segment)
    (member : segment ∈ splitOn '/' (joinWith '/' segments)) : segment = [] ∨ segment ∈ segments := by
  by_cases nonempty : segments = []
  · subst nonempty
    exact .inl (List.mem_singleton.1 member)
  · rw [splitOn_joinWith nonempty slashless] at member
    exact .inr member

theorem Lexical.IsProper.isNormal_toPath (proper : l.IsProper) : IsNormal l.toPath := by
  have slashless := proper.isLayout.slashless
  cases l with
  | rooted names =>
    have isName : ∀ name ∈ names, IsName name := proper
    have ⟨hereless, upless⟩ := not_mem_names isName
    have plain : ∀ segment ∈ splitOn '/' (Lexical.rooted names).toPath.text.toList,
        segment ≠ ['.'] ∧ segment ≠ ['.', '.'] := by
      intro segment member
      have written : (Lexical.rooted names).toPath.text.toList =
          '/' :: joinWith '/' (names.map (·.toList)) := by
        rw [toPath_eq_ofLayout]
        exact String.toList_ofList
      rw [written, splitOn, if_pos rfl, List.mem_cons] at member
      obtain rfl | rfl | held := member.imp_right (mem_splitOn_joinWith slashless)
      · decide
      · decide
      · constructor
        · rintro rfl
          exact hereless held
        · rintro rfl
          exact upless held
    exact ⟨fun member => (plain _ member).1 rfl, ⟨0, _, rfl, fun member => (plain _ member).2 rfl⟩,
      fun _ member => (plain _ member).2 rfl⟩
  | loose climbs names =>
    have isName : ∀ name ∈ names, IsName name := proper
    have ⟨hereless, upless⟩ := not_mem_names isName
    have relative : ¬ (Lexical.loose climbs names).toPath.isAbsolute = true := by
      rw [proper.isAbsolute_toPath]
      rintro ⟨_, same⟩
      cases same
    -- No segments are written as an empty text, whose only segment is empty.
    by_cases empty : (Lexical.loose climbs names).segments = []
    · obtain ⟨none, rfl⟩ := List.append_eq_nil_iff.1 empty
      obtain rfl : climbs = 0 := by simpa using none
      exact ⟨by decide, ⟨0, _, rfl, by decide⟩, fun absolute => absurd absolute relative⟩
    · have written : splitOn '/' (Lexical.loose climbs names).toPath.text.toList =
          List.replicate climbs ['.', '.'] ++ names.map (·.toList) := by
        have text : (Lexical.loose climbs names).toPath.text.toList =
            joinWith '/' ((Lexical.loose climbs names).segments.map (·.toList)) := by
          rw [toPath_eq_ofLayout]
          exact String.toList_ofList
        rw [text, splitOn_joinWith (by simpa using empty) slashless, segments, List.map_append,
          List.map_replicate]
        rfl
      refine ⟨?_, ⟨climbs, _, written, upless⟩, fun absolute => absurd absolute relative⟩
      rw [written, List.mem_append, not_or]
      exact ⟨fun member => absurd (List.eq_of_mem_replicate member) (by decide), hereless⟩

/-- Behind the first component nothing changes where a path begins. -/
theorem Lexical.foldl_push_eq_rooted_iff {components : List Component} (rootless : .root ∉ components)
    (l : Lexical) :
    (∃ names, components.foldl push l = rooted names) ↔ ∃ names, l = rooted names := by
  induction components generalizing l with
  | nil => exact Iff.rfl
  | cons c later ih =>
    rw [List.mem_cons, not_or] at rootless
    rw [List.foldl_cons, ih rootless.2]
    cases c with
    | root => exact absurd rfl rootless.1
    | here => cases l <;> simp [push]
    | name name => cases l <;> simp [push]
    | up =>
      cases l with
      | rooted names => simp [push]
      | loose climbs names => cases names <;> simp [push]

theorem isAbsolute_normalize (p : Path) : p.normalize.toPath.isAbsolute = p.isAbsolute := by
  rw [Bool.eq_iff_iff, (isProper_normalize p).isAbsolute_toPath]
  constructor
  · intro same
    by_contra relative
    have rootless := mt root_mem_components_iff.1 relative
    obtain ⟨_, loose⟩ := (Lexical.foldl_push_eq_rooted_iff rootless _).1 same
    cases loose
  · intro absolute
    obtain ⟨rest, written⟩ := isAbsolute_iff.1 absolute
    rw [normalize, components_of_slash written, List.foldl_cons,
      Lexical.foldl_push_eq_rooted_iff (root_not_mem_filterMap _)]
    exact ⟨[], rfl⟩

/-! ## Where a path leads -/

/-- What a segment does to the names that lead to a folder: a name comes behind them, `..` takes the
last of them back, if there is one, and an empty segment and `.` do nothing. -/
def follow (names : List String) (segment : List Char) : List String :=
  if segment = [] ∨ segment = ['.'] then names
  else if segment = ['.', '.'] then names.dropLast
  else names ++ [String.ofList segment]

/-- The names that a path leads to, read from the folder under some names. An absolute path starts
over at the root. -/
def namesFrom (base : List String) (p : Path) : List String :=
  (splitOn '/' p.text.toList).foldl follow (if p.isAbsolute then [] else base)

theorem rooted_foldl_follow (segments : List (List Char)) (names : List String) :
    Lexical.rooted (segments.foldl follow names) =
      (segments.filterMap componentOf?).foldl Lexical.push (.rooted names) := by
  induction segments generalizing names with
  | nil => rfl
  | cons segment later ih =>
    rw [List.foldl_cons, ih, follow, List.filterMap_cons, componentOf?]
    by_cases idle : segment = [] ∨ segment = ['.']
    · have : isIdle segment = true := by simpa [isIdle] using idle
      simp [idle, this]
    · have : isIdle segment = false := by simpa [isIdle] using idle
      by_cases up : segment = ['.', '.']
      · simp [up, isIdle, Lexical.push]
      · simp [idle, this, up, Lexical.push]

theorem rooted_namesFrom (base : List String) (p : Path) :
    Lexical.rooted (p.namesFrom base) = p.components.foldl Lexical.push (.rooted base) := by
  rw [namesFrom, rooted_foldl_follow]
  by_cases absolute : p.isAbsolute = true
  · obtain ⟨rest, written⟩ := isAbsolute_iff.1 absolute
    have empty : componentOf? [] = none := by decide
    rw [if_pos absolute, components_of_slash written, written, splitOn, if_pos rfl,
      List.filterMap_cons_none empty]
    rfl
  · have relative : p.text.toList.head? ≠ some '/' := by simpa [isAbsolute] using absolute
    rw [if_neg absolute, foldl_push_of_relative relative]

/-! ## Paths that always lead to the same names -/

namespace Lexical

/-- How many levels a normal form climbs. -/
def climbs : Lexical → Nat
  | rooted _ => 0
  | loose climbs _ => climbs

/-- The names that a normal form leads to. -/
def leadsTo (base : List String) : Lexical → List String
  | rooted names => names
  | loose climbs names => base.take (base.length - climbs) ++ names

theorem foldl_push_rooted (l : Lexical) (base : List String) :
    l.components.foldl push (rooted base) = rooted (l.leadsTo base) := by
  cases l with
  | rooted names => exact foldl_push_name [] names
  | loose climbs names =>
    have ups : (List.replicate climbs Component.up).foldl push (rooted base) =
        rooted (base.take (base.length - climbs)) := by
      induction climbs with
      | zero => simp
      | succ climbs ih =>
        rw [List.replicate_succ', List.foldl_concat, ih, push, List.dropLast_eq_take, List.take_take,
          List.length_take]
        congr 2
        omega
    rw [components, List.foldl_append, ups, foldl_push_name, leadsTo]

/-- From a folder deep enough, under a name that is in neither of them, two normal forms lead to the
same names only if they are the same. -/
theorem eq_of_leadsTo {depth : Nat} (absent : name ∉ l.names) (absent' : name ∉ m.names)
    (deep : l.climbs < depth) (deep' : m.climbs < depth)
    (same : l.leadsTo (List.replicate depth name) = m.leadsTo (List.replicate depth name)) :
    l = m := by
  -- How often the fresh name is left says how far a path climbs.
  have left : ∀ climbs names, name ∉ names →
      ((loose climbs names).leadsTo (List.replicate depth name)).count name = depth - climbs := by
    intro climbs names absent
    rw [leadsTo, List.length_replicate, List.take_replicate, List.count_append,
      List.count_replicate_self, List.count_eq_zero.2 absent]
    omega
  have counts := congrArg (List.count name) same
  cases l with
  | rooted names =>
    cases m with
    | rooted names' => exact congrArg rooted same
    | loose climbs' names' =>
      have none : ((rooted names).leadsTo (List.replicate depth name)).count name = 0 :=
        List.count_eq_zero.2 absent
      rw [none, left climbs' names' absent'] at counts
      exact absurd counts (Nat.sub_ne_zero_of_lt deep').symm
  | loose climbs names =>
    rw [left climbs names absent] at counts
    cases m with
    | rooted names' =>
      have none : ((rooted names').leadsTo (List.replicate depth name)).count name = 0 :=
        List.count_eq_zero.2 absent'
      rw [none] at counts
      exact absurd counts (Nat.sub_ne_zero_of_lt deep)
    | loose climbs' names' =>
      have below : climbs < depth := deep
      have below' : climbs' < depth := deep'
      rw [left climbs' names' absent'] at counts
      obtain rfl : climbs = climbs' := by omega
      exact congrArg (loose climbs) (List.append_cancel_left same)

end Lexical

/-- A name with some characters behind its first one. -/
def longName (more : Nat) : String :=
  String.ofList (List.replicate (more + 1) 'a')

theorem longName_injective : Function.Injective longName := by
  intro more more' same
  simpa [longName] using congrArg String.length same

theorem exists_fresh (names : List String) : ∃ name, IsName name ∧ name ∉ names := by
  obtain ⟨_, ⟨more, rfl⟩, absent⟩ :=
    (Set.infinite_range_of_injective longName_injective).exists_notMem_finset names.toFinset
  have own : 'a' ∈ (longName more).toList := by simp [longName]
  refine ⟨longName more, ⟨⟨List.ne_nil_of_mem own, by simp [longName]⟩, ?_, ?_⟩, by simpa using absent⟩
  · intro same
    rw [same] at own
    exact absurd own (by decide)
  · intro same
    rw [same] at own
    exact absurd own (by decide)

theorem namesFrom_toPath {location : Location} (isName : ∀ name ∈ location, IsName name)
    (base : List String) : location.toPath.namesFrom base = location := by
  have absolute : location.toPath.isAbsolute = true := isAbsolute_toPath location
  have led := rooted_namesFrom base location.toPath
  rw [foldl_push_of_isAbsolute absolute, normalize_toPath isName] at led
  exact Lexical.rooted.inj led

theorem normalize_eq_normalize_iff_namesFrom : p.normalize = q.normalize ↔
    ∀ base : Path, base.isAbsolute = true →
      p.namesFrom (base.namesFrom []) = q.namesFrom (base.namesFrom []) := by
  have led : ∀ (path : Path) (base : List String),
      path.namesFrom base = path.normalize.leadsTo base := by
    intro path base
    refine Lexical.rooted.inj ?_
    rw [rooted_namesFrom, ← foldl_push_normalize, Lexical.foldl_push_rooted]
  constructor
  · intro same base _
    rw [led p, led q, same]
  · intro alike
    -- A folder deeper than both paths climb, under a name that neither of them has.
    obtain ⟨name, isName, absent⟩ := exists_fresh (p.normalize.names ++ q.normalize.names)
    rw [List.mem_append, not_or] at absent
    obtain ⟨depth, deep, deep'⟩ : ∃ depth, p.normalize.climbs < depth ∧ q.normalize.climbs < depth :=
      ⟨p.normalize.climbs + q.normalize.climbs + 1, by omega, by omega⟩
    have isNames : ∀ each ∈ List.replicate depth name, IsName each := fun each member =>
      List.eq_of_mem_replicate member ▸ isName
    have same := alike (Location.toPath (List.replicate depth name)) (isAbsolute_toPath _)
    rw [namesFrom_toPath isNames, led, led] at same
    exact Lexical.eq_of_leadsTo absent.1 absent.2 deep deep' same

/-- A normal form has no `.`, and `..` only in front; it begins where the path begins; it is its own
normal form; joined paths may be put into normal form before they are joined; and two paths have the
same one exactly where they lead to the same names from every folder. -/
theorem normalize_canonical (a b : Path) :
    IsNormal a.normalize.toPath ∧ a.normalize.toPath.isAbsolute = a.isAbsolute ∧
      a.normalize.toPath.normalize = a.normalize ∧
      (a.join b.text).normalize = (a.normalize.toPath.join b.normalize.toPath.text).normalize ∧
      (a.normalize = b.normalize ↔ ∀ base : Path, base.isAbsolute = true →
        a.namesFrom (base.namesFrom []) = b.namesFrom (base.namesFrom [])) := by
  refine ⟨(isProper_normalize a).isNormal_toPath, isAbsolute_normalize a,
    normalize_toPath_normalize a, ?_, normalize_eq_normalize_iff_namesFrom⟩
  rw [normalize_join, normalize_join, normalize_toPath_normalize,
    (isProper_normalize b).components_toPath, foldl_push_normalize]

example : (Path.mk "a/../../b/./c//").normalize.toPath = ⟨"../b/c"⟩ := by decide

end FileGraph.Path
