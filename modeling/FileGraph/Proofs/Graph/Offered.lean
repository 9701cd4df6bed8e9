import FileGraph.Proofs.Graph.Circular
import Mathlib

/-! # Which cycles are dropped

* `offered`: the cycles that a run finds, in the order in which they are offered for keeping.
  `detectIn_eq_foldl` shows that detection is keeping these, one after the other.
* `Dropped`, `Suppresses`: a cycle that is offered in vain, and the cycle that is at fault.
  `dropped_iff` shows that one earlier cycle is enough to blame.
* `key_eq_iff`: two keys are the same exactly if the pieces between line feeds are, which are the
  names where no name has a line feed.
* `detect_dropped`: what is dropped in a whole run.
-/

namespace FileGraph.Cycle

variable {n : Nat} {index : Index n} {g : Digraph n} {kept : List (Kept n)}
variable {components : List (List (Fin n))}

/-! ## The cycles of a run -/

/-- The cycle that the repair of `u` offers when the cycles `kept` are there. -/
def repairCycle? (g : Digraph n) (components : List (List (Fin n))) (kept : List (Kept n))
    (u : Fin n) : Option (List (Fin n)) :=
  let component := Digraph.componentOf components u
  if kept.any (·.cycle.contains u) || component.length < 2 then none
  else g.cycleThrough? component u

/-- The cycles that are offered for nodes in turn, each with what is kept when its turn comes. -/
def repairCycles (index : Index n) (g : Digraph n) (components : List (List (Fin n))) :
    List (Kept n) → List (Fin n) → List (List (Fin n))
  | _, [] => []
  | kept, u :: nodes =>
      (repairCycle? g components kept u).toList ++
        repairCycles index g components (repair index g components kept u) nodes

/-- All cycles that are offered in a run. -/
def offered (index : Index n) (g : Digraph n) : List (List (Fin n)) :=
  let closed := g.traverse.closed
  closed ++
    repairCycles index g g.components (closed.foldl (record index) []) (List.finRange n)

theorem repair_eq_foldl (u : Fin n) : repair index g components kept u =
    (repairCycle? g components kept u).toList.foldl (record index) kept := by
  unfold repair repairCycle?
  dsimp only
  split
  · rfl
  · cases g.cycleThrough? (Digraph.componentOf components u) u with
    | none => rfl
    | some cycle => rfl

theorem foldl_repair_eq (nodes : List (Fin n)) (kept : List (Kept n)) :
    nodes.foldl (repair index g components) kept =
      (repairCycles index g components kept nodes).foldl (record index) kept := by
  induction nodes generalizing kept with
  | nil => rfl
  | cons u nodes ih =>
      rw [List.foldl_cons, ih, repairCycles, List.foldl_append, ← repair_eq_foldl]

theorem detectIn_eq_foldl (index : Index n) (g : Digraph n) :
    detectIn index g = ((offered index g).foldl (record index) []).map (·.cycle) := by
  unfold detectIn offered
  dsimp only
  rw [foldl_repair_eq, List.foldl_append]

theorem isCycle_of_mem_repairCycles {nodes : List (Fin n)} {cycle : List (Fin n)}
    (member : cycle ∈ repairCycles index g components kept nodes) : g.IsCycle cycle := by
  induction nodes generalizing kept with
  | nil => simp [repairCycles] at member
  | cons u nodes ih =>
      cases List.mem_append.1 member with
      | inr later => exact ih later
      | inl now =>
          have found := Option.mem_toList.1 now
          unfold repairCycle? at found
          dsimp only at found
          split at found
          · simp at found
          · exact (Digraph.isCycle_of_cycleThrough? found).1

theorem isCycle_of_mem_offered {cycle : List (Fin n)} (member : cycle ∈ offered index g) :
    g.IsCycle cycle := by
  cases List.mem_append.1 member with
  | inl closed => exact Digraph.isCycle_of_mem_closed closed
  | inr repaired => exact isCycle_of_mem_repairCycles repaired

/-! ## Dropping -/

/-- The cycle is not kept when it is offered behind the cycles `before`. -/
def Dropped (index : Index n) (before : List (List (Fin n))) (cycle : List (Fin n)) : Prop :=
  let kept := before.foldl (record index) []
  record index kept cycle = kept

/-- The second cycle is not kept, and the first one alone is reason enough. -/
def Suppresses (index : Index n) (first second : List (Fin n)) : Prop :=
  Dropped index [first] second

theorem dropped_iff_mem_keys {before : List (List (Fin n))} {cycle : List (Fin n)} :
    Dropped index before cycle ↔ key index cycle ∈ before.map (key index) := by
  unfold Dropped
  dsimp only
  rw [record_eq_self_iff, mem_keys_foldl_record]
  simp

theorem suppresses_iff_key_eq {first second : List (Fin n)} :
    Suppresses index first second ↔ key index first = key index second := by
  unfold Suppresses
  rw [dropped_iff_mem_keys, List.map_singleton, List.mem_singleton]
  exact eq_comm

/-- A dropped cycle is suppressed by a single one. -/
theorem dropped_iff {before : List (List (Fin n))} {cycle : List (Fin n)} :
    Dropped index before cycle ↔ ∃ first ∈ before, Suppresses index first cycle := by
  simp only [dropped_iff_mem_keys, List.mem_map, suppresses_iff_key_eq]

/-! ## What a key tells -/

/-- Two cycles through the same files. -/
def SameMembers (index : Index n) (first second : List (Fin n)) : Prop :=
  ∀ x, x ∈ first.map index.name ↔ x ∈ second.map index.name

/-- What stands between line feeds in the ordered names of a cycle. -/
def pieces (index : Index n) (cycle : List (Fin n)) : List (List Char) :=
  ((cycle.map index.name).mergeSort fun a b => a ≤ b).flatMap fun x => x.toList.splitOn '\n'

theorem splitOn_intercalate_flatMap {texts : List (List Char)} (ne_nil : texts ≠ []) :
    (['\n'].intercalate texts).splitOn '\n' = texts.flatMap (List.splitOn '\n') := by
  induction texts with
  | nil => exact absurd rfl ne_nil
  | cons text texts ih =>
      cases texts with
      | nil => simp
      | cons next later =>
          rw [List.intercalate_cons_cons, List.flatMap_cons, ← ih (List.cons_ne_nil _ _),
            List.append_assoc, List.singleton_append, List.splitOn_append_cons_self]

theorem splitOn_key {cycle : List (Fin n)} (ne_nil : cycle ≠ []) :
    (key index cycle).toList.splitOn '\n' = pieces index cycle := by
  have filled := mergeSort_ne_nil (by simpa using ne_nil : cycle.map index.name ≠ [])
  unfold key pieces
  rw [String.toList_intercalate]
  refine (splitOn_intercalate_flatMap (by simpa using filled)).trans ?_
  rw [List.flatMap_map]

theorem key_eq_iff {first second : List (Fin n)} (ne_nil : first ≠ []) (ne_nil' : second ≠ []) :
    key index first = key index second ↔ pieces index first = pieces index second := by
  rw [← splitOn_key ne_nil, ← splitOn_key ne_nil']
  constructor
  · intro same
    rw [same]
  · intro same
    -- Joining the pieces gives back the text that was cut.
    have joined := congrArg (['\n'].intercalate ·) same
    simp only [List.intercalate_splitOn] at joined
    exact String.toList_inj.1 joined

/-! ## A whole run -/

/-- Every cycle that is offered leaves its key, be it by way of a cycle that was kept before. -/
theorem exists_key_of_mem_offered {cycle : List (Fin n)} (member : cycle ∈ offered index g) :
    ∃ found ∈ detectIn index g, g.IsCycle found ∧ key index found = key index cycle := by
  have recorded : Recorded index g ((offered index g).foldl (record index) []) :=
    Recorded.nil.foldl_record fun _ => isCycle_of_mem_offered
  have there : key index cycle ∈ ((offered index g).foldl (record index) []).map (·.key) :=
    mem_keys_foldl_record.2 (Or.inr (List.mem_map_of_mem member))
  obtain ⟨k, held, same⟩ := List.mem_map.1 there
  refine ⟨k.cycle, ?_, recorded.isCycle k held, ?_⟩
  · rw [detectIn_eq_foldl]
    exact List.mem_map_of_mem held
  · rw [← recorded.keyed k held, same]

/-- What is dropped when cycles among files are detected. A cycle that goes through the same files
as an earlier one is always dropped. One through other files is dropped too if the names of both,
written one below the other, read the same, which takes a name with a line feed. -/
theorem detect_dropped (ids : List String) (references : List (String × String)) :
    let index := Index.ofList ids
    let cycles := offered index (index.looplessDigraph references)
    detect ids references =
        ((cycles.foldl (record index) []).map (·.cycle)).map (·.map index.name) ∧
      (∀ before cycle behind, cycles = before ++ cycle :: behind →
        (Dropped index before cycle ↔ ∃ first ∈ before, Suppresses index first cycle)) ∧
      (∀ first ∈ cycles, ∀ second ∈ cycles,
        (SameMembers index first second → Suppresses index first second) ∧
        (Suppresses index first second ↔ pieces index first = pieces index second) ∧
        ((∀ x ∈ first.map index.name, '\n' ∉ x.toList) →
          (∀ x ∈ second.map index.name, '\n' ∉ x.toList) →
            (Suppresses index first second ↔ SameMembers index first second))) ∧
      ((∀ x ∈ ids, '\n' ∉ x.toList) → ∀ cycle ∈ cycles, ∃ found ∈ detect ids references,
        ∀ x, x ∈ found ↔ x ∈ cycle.map index.name) := by
  intro index cycles
  have isCycle : ∀ cycle ∈ cycles, (index.looplessDigraph references).IsCycle cycle :=
    fun _ => isCycle_of_mem_offered
  have named : ∀ cycle ∈ cycles, (cycle.map index.name).Nodup :=
    fun cycle member => nodup_map_name (isCycle cycle member)
  refine ⟨?_, fun _ _ _ _ => dropped_iff, ?_, ?_⟩
  · exact congrArg (List.map _) (detectIn_eq_foldl index _)
  · intro first one second other
    have ne_nil := (isCycle first one).ne_nil
    have ne_nil' := (isCycle second other).ne_nil
    -- That cycles through the same files have one key takes no condition on the names.
    have suppressed : SameMembers index first second → Suppresses index first second :=
      fun same => suppresses_iff_key_eq.2
        (key_eq_of_mem_iff (named first one) (named second other) same)
    refine ⟨suppressed, suppresses_iff_key_eq.trans (key_eq_iff ne_nil ne_nil'), ?_⟩
    intro plain plain'
    refine ⟨fun suppresses => ?_, suppressed⟩
    exact mem_iff_of_key_eq ne_nil ne_nil' plain plain' (suppresses_iff_key_eq.1 suppresses)
  · intro plain cycle member
    have feedless : ∀ members : List (Fin ids.length), ∀ x ∈ members.map index.name,
        '\n' ∉ x.toList :=
      fun members => List.forall_mem_map.2 fun u _ => plain _ (Index.name_mem ids u)
    obtain ⟨found, detected, isCycle', same⟩ := exists_key_of_mem_offered member
    exact ⟨found.map index.name, List.mem_map_of_mem detected,
      mem_iff_of_key_eq isCycle'.ne_nil (isCycle cycle member).ne_nil (feedless found)
        (feedless cycle) same⟩

/-- An edge that is given twice closes the same cycle twice, and the second one is dropped. -/
theorem detect_dropped_twice :
    let index := Index.ofList ["a", "b"]
    let references := [("a", "b"), ("b", "a"), ("b", "a")]
    offered index (index.looplessDigraph references) = [[0, 1], [0, 1]] ∧
      Suppresses index [0, 1] [0, 1] ∧ Dropped index [[0, 1]] [0, 1] := by
  intro index references
  have cycles : offered index (index.looplessDigraph references) = [[0, 1], [0, 1]] := by cbv
  obtain ⟨-, dropped, suppressed, -⟩ := detect_dropped ["a", "b"] references
  have suppresses : Suppresses index [0, 1] [0, 1] :=
    (suppressed [0, 1] (by simp [cycles, index]) [0, 1] (by simp [cycles, index])).1 fun _ => Iff.rfl
  exact ⟨cycles, suppresses,
    (dropped [[0, 1]] [0, 1] [] cycles).2 ⟨[0, 1], by simp, suppresses⟩⟩

/-- Both cycles are written as `a`, `b` and `c` one below the other, so that the second one is
dropped though it shares no file with the first. Its files are on no cycle then, and what is offered
for each of them is dropped as well. -/
theorem detect_dropped_line_feed :
    let ids := ["a\nb", "c", "a", "b\nc"]
    let references := [("a\nb", "c"), ("c", "a\nb"), ("a", "b\nc"), ("b\nc", "a")]
    let index := Index.ofList ids
    offered index (index.looplessDigraph references) = [[0, 1], [2, 3], [2, 3], [3, 2]] ∧
      Suppresses index [0, 1] [2, 3] ∧ ¬ SameMembers index [0, 1] [2, 3] ∧
      detect ids references = [["a\nb", "c"]] := by
  intro ids references index
  refine ⟨by cbv, suppresses_iff_key_eq.2 (by cbv), ?_, by cbv⟩
  intro same
  have inside := (same "c").1 (by decide)
  revert inside
  decide

end FileGraph.Cycle
