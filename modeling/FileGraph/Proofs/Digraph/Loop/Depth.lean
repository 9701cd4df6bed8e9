import FileGraph.Digraph.Loop
import FileGraph.Proofs.Digraph.Recursion
import Mathlib.Logic.Function.Iterate

/-! # What the loop of a search in the depth does

The stack of frames, the path and the two tables change at different moments, but between two rounds
of the loop they always say the same.

* `DepthLoop.Holds`: the tables hold what a search in the depth says, and the frames count what it has
  looked at.
* `DepthLoop.Holds.step`, `DepthLoop.Holds.run`, `DepthLoop.Holds.visit`: both take the same steps.
* `DepthLoop.Tallied`: what is written down of the nodes entered and of the successors looked at.
* `DepthLoop.Occurs`: the states that the loop comes through.
* `depthLoop_descends`: the loop emits what the recursion emits, and does each thing once.
-/

namespace FileGraph.Digraph

open Traversal (Sound)

variable {n : Nat} {g : Digraph n}

theorem get_set_true (table : Vector Bool n) (u v : Fin n) :
    (table.set u true u.isLt).get v = true ↔ v = u ∨ table.get v = true := by
  rw [get_set]
  by_cases same : u = v
  · rw [if_pos same]
    exact iff_of_true rfl (Or.inl same.symm)
  · rw [if_neg same]
    exact (or_iff_right (Ne.symm same)).symm

theorem drop_idxOf? {path : List (Fin n)} {v : Fin n} {place : Nat}
    (found : path.idxOf? v = some place) : path.drop place = path.dropWhile (· != v) := by
  obtain ⟨bound, here, before⟩ := List.idxOf?_eq_some_iff.1 found
  have apart : ∀ w ∈ path.take place, (w != v) = true := by
    intro w member
    obtain ⟨i, short, rfl⟩ := List.mem_iff_getElem.1 member
    rw [List.length_take] at short
    rw [List.getElem_take]
    exact bne_iff_ne.2 (before i (by omega))
  have begins : path.drop place = v :: path.drop (place + 1) := by
    rw [List.drop_eq_getElem_cons bound, here]
  conv_rhs => rw [← List.take_append_drop place path, List.dropWhile_append_of_pos apart, begins]
  rw [List.dropWhile_cons_of_neg (by simp), begins]

namespace DepthLoop

/-! ## The tables hold what the search says -/

/-- The frame of a search that stands for one that counts the successors looked at. -/
def frameOf (g : Digraph n) (frame : Fin n × Nat) : Frame n :=
  ⟨frame.1, (g.next frame.1).drop frame.2⟩

/-- The tables of a loop hold what a search in the depth says. -/
structure Holds (g : Digraph n) (s : DepthLoop n) (t : Traversal n) : Prop where
  visited : ∀ v, s.visited.get v = true ↔ v ∈ t.seen
  onStack : ∀ v, s.onStack.get v = true ↔ v ∈ t.path
  path : s.path = t.path.reverse
  frames : t.frames = s.stack.map (frameOf g)
  cycles : s.cycles = t.closed
  leftNodes : s.leftNodes = t.finished.reverse

theorem holds_start : Holds g .start .empty where
  visited := by simp [start, Traversal.empty]
  onStack := by simp [start, Traversal.empty, Traversal.path]
  path := rfl
  frames := rfl
  cycles := rfl
  leftNodes := rfl

namespace Holds

variable {s : DepthLoop n} {t : Traversal n} {u v : Fin n} {place : Nat}
  {below : List (Fin n × Nat)}

theorem stack_eq_nil_iff (holds : Holds g s t) : s.stack = [] ↔ t.frames = [] := by
  rw [holds.frames, List.map_eq_nil_iff]

theorem map_fst (holds : Holds g s t) : s.stack.map Prod.fst = t.path := by
  rw [Traversal.path, holds.frames, List.map_map]
  rfl

theorem path_eq_cons (holds : Holds g s t) (stack : s.stack = (u, place) :: below) :
    t.path = u :: below.map Prod.fst := by
  rw [← holds.map_fst, stack, List.map_cons]

theorem enter (holds : Holds g s t) (v : Fin n) : Holds g (s.enter v) (t.enter g v) := by
  have path : (t.enter g v).path = v :: t.path := rfl
  refine ⟨?_, ?_, ?_, ?_, ?_, ?_⟩
  · intro w
    exact (get_set_true s.visited v w).trans
      ((or_congr_right (holds.visited w)).trans List.mem_cons.symm)
  · intro w
    rw [path]
    exact (get_set_true s.onStack v w).trans
      ((or_congr_right (holds.onStack w)).trans List.mem_cons.symm)
  · rw [path, List.reverse_cons, ← holds.path]
    rfl
  · simp [DepthLoop.enter, Traversal.enter, holds.frames, frameOf]
  · exact (cycles_enter s v).trans holds.cycles
  · exact (leftNodes_enter s v).trans holds.leftNodes

/-- A frame that has counted a successor has one less to look at, and all else stays. -/
theorem count (holds : Holds g s t) (stack : s.stack = (u, place) :: below) :
    Holds g (s.count u place)
      { t with frames := frameOf g (u, place + 1) :: below.map (frameOf g) } := by
  have path : ({ t with frames := frameOf g (u, place + 1) :: below.map (frameOf g) } :
      Traversal n).path = t.path := by
    rw [holds.path_eq_cons stack, Traversal.path, List.map_cons, List.map_map]
    rfl
  refine ⟨holds.visited, ?_, ?_, ?_, ?_, ?_⟩
  · rw [path]
    exact holds.onStack
  · rw [path]
    exact holds.path
  · simp [DepthLoop.count, stack]
  · exact (cycles_count s u place).trans holds.cycles
  · exact (leftNodes_count s u place).trans holds.leftNodes

theorem leave (holds : Holds g s t) (nodup : t.path.Nodup)
    (stack : s.stack = (u, place) :: below) :
    Holds g (s.leave u)
      { t with frames := below.map (frameOf g), finished := u :: t.finished } := by
  have names := holds.path_eq_cons stack
  have path : ({ t with frames := below.map (frameOf g), finished := u :: t.finished } :
      Traversal n).path = below.map Prod.fst := by
    rw [Traversal.path, List.map_map]
    rfl
  refine ⟨holds.visited, ?_, ?_, ?_, ?_, ?_⟩
  · -- The node stands on the path only once, so it is off the path when it is left.
    intro w
    rw [names] at nodup
    have onStack := holds.onStack w
    rw [names, List.mem_cons] at onStack
    rw [path, DepthLoop.leave, get_set]
    by_cases same : u = w
    · subst same
      simp [(List.nodup_cons.1 nodup).1]
    · rw [if_neg same, onStack]
      exact or_iff_right (Ne.symm same)
  · rw [path]
    simp [DepthLoop.leave, holds.path, names]
  · simp [DepthLoop.leave, stack]
  · exact (cycles_leave s u).trans holds.cycles
  · rw [leftNodes_leave, holds.leftNodes, List.reverse_cons]

theorem look_of_onPath (holds : Holds g s t) (nodup : t.path.Nodup) (known : v ∈ t.seen)
    (onPath : v ∈ t.path) :
    s.look v = { s with log := s.log ++ [.closed (Traversal.slice t.path v)] } := by
  have listed : v ∈ s.path := by rwa [holds.path, List.mem_reverse]
  obtain ⟨place, found⟩ := Option.isSome_iff_exists.1 (List.isSome_idxOf?.2 listed)
  have slice : s.path.drop place = Traversal.slice t.path v := by
    rw [Traversal.slice_eq_dropWhile nodup onPath, drop_idxOf? found, holds.path]
  simp only [look, (holds.visited v).2 known, (holds.onStack v).2 onPath, found, slice,
    Bool.not_true, Bool.false_eq_true, ↓reduceIte]

theorem look_of_off (holds : Holds g s t) (known : v ∈ t.seen) (off : v ∉ t.path) :
    s.look v = s := by
  have off : s.onStack.get v = false := Bool.eq_false_iff.2 (mt (holds.onStack v).1 off)
  simp only [look, (holds.visited v).2 known, off, Bool.not_true, Bool.false_eq_true, ↓reduceIte]

theorem look_of_fresh (holds : Holds g s t) (fresh : v ∉ t.seen) : s.look v = s.enter v := by
  have fresh : s.visited.get v = false := Bool.eq_false_iff.2 (mt (holds.visited v).1 fresh)
  simp only [look, fresh, Bool.not_false, ↓reduceIte]

theorem close (holds : Holds g s t) (cycle : List (Fin n)) :
    Holds g { s with log := s.log ++ [.closed cycle] }
      { t with closed := t.closed ++ [cycle] } where
  visited := holds.visited
  onStack := holds.onStack
  path := holds.path
  frames := holds.frames
  cycles := by
    rw [← holds.cycles]
    simp [DepthLoop.cycles, Event.cycle?]
  leftNodes := by
    rw [← holds.leftNodes]
    simp [DepthLoop.leftNodes, Event.left?]

theorem step (holds : Holds g s t) (sound : Sound g t) : Holds g (s.step g) (t.step g) := by
  have nodup : t.path.Nodup := (List.nodup_append.1 sound.nodup).1
  unfold DepthLoop.step
  split
  · rename_i done
    -- No frame is left, and both stay as they are.
    have idle := holds.stack_eq_nil_iff.1 done
    rw [show t.step g = t by simp only [Traversal.step, idle]]
    exact holds
  · rename_i u place below stack
    have frames := holds.frames
    rw [stack, List.map_cons] at frames
    split
    · rename_i v here
      -- The next successor of the present node is looked at.
      obtain ⟨bound, rfl⟩ := List.getElem?_eq_some_iff.1 here
      have counted := holds.count stack
      have frames : t.frames = ⟨u, (g.next u)[place] :: (g.next u).drop (place + 1)⟩ ::
          below.map (frameOf g) := by
        rw [frames, frameOf, List.drop_eq_getElem_cons bound]
      have path := (counted.path.symm.trans holds.path)
      rw [List.reverse_inj] at path
      by_cases known : (g.next u)[place] ∈ t.seen
      · by_cases onPath : (g.next u)[place] ∈ t.path
        · rw [Traversal.step_close frames known onPath,
            counted.look_of_onPath (path ▸ nodup) known (path ▸ onPath), path]
          exact counted.close _
        · rw [Traversal.step_pass frames known onPath, counted.look_of_off known (path ▸ onPath)]
          exact counted
      · rw [Traversal.step_enter frames known, counted.look_of_fresh known]
        exact counted.enter _
    · rename_i all
      -- All successors of the present node are looked at.
      have done : (g.next u).drop place = [] := List.drop_eq_nil_iff.2 (List.getElem?_eq_none_iff.1 all)
      rw [frameOf, done] at frames
      rw [Traversal.step_leave frames]
      exact holds.leave nodup stack

theorem run (holds : Holds g s t) (sound : Sound g t) : Holds g (s.run g) (t.run g) := by
  fun_induction Traversal.run g t generalizing s with
  | case1 t done =>
    rw [DepthLoop.run, if_pos (holds.stack_eq_nil_iff.2 done)]
    exact holds
  | case2 t going ih =>
    rw [DepthLoop.run, if_neg (mt holds.stack_eq_nil_iff.1 going)]
    exact ih (holds.step sound) sound.step

theorem visit (holds : Holds g s t) (sound : Sound g t) (idle : t.frames = []) (u : Fin n) :
    Holds g (s.visit g u) (t.visit g u) := by
  unfold DepthLoop.visit Traversal.visit
  by_cases known : u ∈ t.seen
  · rw [if_pos ((holds.visited u).2 known), if_pos (List.contains_iff_mem.2 known)]
    exact holds
  · rw [if_neg (mt (holds.visited u).1 known), if_neg (mt List.contains_iff_mem.1 known)]
    exact (holds.enter u).run (sound.enter_of_idle idle known)

theorem foldl_visit (holds : Holds g s t) (sound : Sound g t) (idle : t.frames = [])
    (roots : List (Fin n)) :
    Holds g (roots.foldl (DepthLoop.visit g) s) (roots.foldl (Traversal.visit g) t) := by
  induction roots generalizing s t with
  | nil => exact holds
  | cons u roots ih =>
    exact ih (holds.visit sound idle u) (sound.visit idle u) (Traversal.frames_visit idle u)

end Holds

/-! ## What is written down -/

/-- What is written down of a search under way. Every visited node was entered once, and of the
successors of a node those before a place, which `progress` gives, were looked at once each: all that
the frame of a node on the path has counted, and all that there are once the node is left. -/
structure Tallied (g : Digraph n) (s : DepthLoop n) (progress : Fin n → Nat) : Prop where
  entered : ∀ v, s.log.count (.entered v) = if s.visited.get v then 1 else 0
  examined : ∀ v place, s.log.count (.examined v place) = if place < progress v then 1 else 0
  framed : ∀ frame ∈ s.stack, progress frame.1 = frame.2 ∧ frame.2 ≤ (g.next frame.1).length
  others : ∀ v, v ∉ s.stack.map Prod.fst →
    progress v = if s.visited.get v then (g.next v).length else 0

theorem tallied_start : Tallied g .start fun _ => 0 where
  entered := by simp [start]
  examined := by simp [start]
  framed := by simp [start]
  others := by simp [start]

theorem count_log {log : List (Event n)} {event event' : Event n} (other : event' ≠ event) :
    (log ++ [event']).count event = log.count event := by
  rw [List.count_append, List.count_singleton, if_neg (by simpa using other), Nat.add_zero]

theorem count_log_self {log : List (Event n)} {event : Event n} :
    (log ++ [event]).count event = log.count event + 1 := by
  rw [List.count_append, List.count_singleton_self]

namespace Tallied

variable {s : DepthLoop n} {t : Traversal n} {progress : Fin n → Nat} {u v : Fin n} {place : Nat}
  {below : List (Fin n × Nat)}

theorem enter (tallied : Tallied g s progress) (fresh : s.visited.get v = false)
    (off : v ∉ s.stack.map Prod.fst) : Tallied g (s.enter v) progress where
  entered := by
    intro w
    have before := tallied.entered w
    rw [DepthLoop.enter, get_set]
    by_cases same : v = w
    · subst same
      rw [count_log_self, before, fresh]
      simp
    · rw [count_log (by simpa using same), before, if_neg same]
  examined := fun w place => (count_log (by simp)).trans (tallied.examined w place)
  framed := by
    have unused := tallied.others v off
    rw [fresh] at unused
    exact List.forall_mem_cons.2 ⟨⟨unused, Nat.zero_le _⟩, tallied.framed⟩
  others := by
    intro w away
    obtain ⟨other, away⟩ := not_or.1 (List.mem_cons.not.1 away)
    rw [tallied.others w away, DepthLoop.enter, get_set, if_neg (Ne.symm other)]

theorem count (tallied : Tallied g s progress) (stack : s.stack = (u, place) :: below)
    (nodup : (s.stack.map Prod.fst).Nodup) (bound : place < (g.next u).length) :
    Tallied g (s.count u place) (Function.update progress u (place + 1)) := by
  obtain ⟨here, -⟩ := tallied.framed (u, place) (stack ▸ List.mem_cons_self)
  rw [stack, List.map_cons] at nodup
  have alone := (List.nodup_cons.1 nodup).1
  refine ⟨fun w => (count_log (by simp)).trans (tallied.entered w), ?_, ?_, ?_⟩
  · intro w place'
    by_cases same : w = u
    · subst same
      rw [Function.update_self, DepthLoop.count]
      -- The entry that is written down now is the one for this place.
      by_cases now : place = place'
      · subst now
        rw [count_log_self, tallied.examined, here, if_neg (Nat.lt_irrefl _),
          if_pos (Nat.lt_succ_self _)]
      · have earlier : place' < place + 1 ↔ place' < place := by omega
        rw [count_log (by simp [now]), tallied.examined, here]
        simp only [earlier]
    · rw [Function.update_of_ne same]
      exact (count_log (by simp [Ne.symm same])).trans (tallied.examined w place')
  · refine List.forall_mem_cons.2 ⟨⟨Function.update_self .., bound⟩, ?_⟩
    intro frame waits
    rw [stack, List.tail_cons] at waits
    -- No node has two frames.
    have other : frame.1 ≠ u := fun same =>
      alone (List.mem_map.2 ⟨frame, waits, same⟩)
    rw [Function.update_of_ne other]
    exact tallied.framed frame (stack ▸ List.mem_cons_of_mem _ waits)
  · intro w away
    rw [DepthLoop.count, stack, List.tail_cons, List.map_cons] at away
    rw [Function.update_of_ne (List.ne_of_not_mem_cons away)]
    exact tallied.others w (by rwa [stack, List.map_cons])

theorem leave (tallied : Tallied g s progress) (stack : s.stack = (u, place) :: below)
    (entered : s.visited.get u = true) (all : (g.next u).length ≤ place) :
    Tallied g (s.leave u) progress := by
  obtain ⟨here, bound⟩ := tallied.framed (u, place) (stack ▸ List.mem_cons_self)
  refine ⟨fun w => (count_log (by simp)).trans (tallied.entered w),
    fun w place => (count_log (by simp)).trans (tallied.examined w place), ?_, ?_⟩
  · intro frame waits
    exact tallied.framed frame (List.mem_of_mem_tail waits)
  · intro w away
    rw [DepthLoop.leave, stack, List.tail_cons] at away
    by_cases same : w = u
    · subst same
      rw [here, DepthLoop.leave, entered]
      exact Nat.le_antisymm bound all
    · exact tallied.others w (by simpa [stack, same] using away)

theorem close (tallied : Tallied g s progress) (cycle : List (Fin n)) :
    Tallied g { s with log := s.log ++ [.closed cycle] } progress where
  entered := fun w => (count_log (by simp)).trans (tallied.entered w)
  examined := fun w place => (count_log (by simp)).trans (tallied.examined w place)
  framed := tallied.framed
  others := tallied.others

theorem look (tallied : Tallied g s progress)
    (tracked : ∀ w ∈ s.stack.map Prod.fst, s.visited.get w = true) (v : Fin n) :
    Tallied g (s.look v) progress := by
  unfold DepthLoop.look
  split
  · rename_i fresh
    have fresh : s.visited.get v = false := by simpa using fresh
    refine tallied.enter fresh fun onPath => ?_
    exact Bool.false_ne_true (fresh.symm.trans (tracked v onPath))
  · split
    · split
      · exact tallied.close _
      · exact tallied
    · exact tallied

theorem step (tallied : Tallied g s progress) (holds : Holds g s t) (sound : Sound g t) :
    ∃ progress', Tallied g (s.step g) progress' := by
  have names := holds.map_fst
  have nodup : (s.stack.map Prod.fst).Nodup := names ▸ (List.nodup_append.1 sound.nodup).1
  have tracked : ∀ w ∈ s.stack.map Prod.fst, s.visited.get w = true := by
    intro w onPath
    exact (holds.visited w).2 ((sound.mem_seen w).2 (Or.inl (names ▸ onPath)))
  unfold DepthLoop.step
  split
  · exact ⟨progress, tallied⟩
  · rename_i u place below stack
    split
    · rename_i v here
      obtain ⟨bound, -⟩ := List.getElem?_eq_some_iff.1 here
      have same : (s.count u place).stack.map Prod.fst = s.stack.map Prod.fst := by
        simp [DepthLoop.count, stack]
      exact ⟨_, (tallied.count stack nodup bound).look (same ▸ tracked) v⟩
    · rename_i all
      exact ⟨progress, tallied.leave stack (tracked u (by simp [stack]))
        (List.getElem?_eq_none_iff.1 all)⟩

end Tallied

end DepthLoop

theorem holds_depthLoop (g : Digraph n) (roots : List (Fin n)) :
    DepthLoop.Holds g (g.depthLoop roots) (roots.foldl (Traversal.visit g) .empty) :=
  DepthLoop.holds_start.foldl_visit .empty rfl roots

theorem depthLoop_idle (g : Digraph n) (roots : List (Fin n)) :
    (g.depthLoop roots).stack = [] ∧ (g.depthLoop roots).path = [] ∧
      ∀ v : Fin n, (g.depthLoop roots).onStack.get v = false := by
  have holds := holds_depthLoop g roots
  have idle := (Traversal.sound_foldl_visit roots (g := g) .empty rfl).2.1
  have path : (roots.foldl (Traversal.visit g) .empty).path = [] := by rw [Traversal.path, idle]; rfl
  refine ⟨holds.stack_eq_nil_iff.2 idle, ?_, ?_⟩
  · rw [holds.path, path, List.reverse_nil]
  · intro v
    refine Bool.eq_false_iff.2 (mt (holds.onStack v).1 ?_)
    rw [path]
    exact List.not_mem_nil

theorem leftNodes_depthLoop (g : Digraph n) :
    (g.depthLoop (List.finRange n)).leftNodes = g.traverse.finished.reverse :=
  (holds_depthLoop g (List.finRange n)).leftNodes

/-! ## All states of a search -/

namespace DepthLoop

theorem exists_rounds (g : Digraph n) (s : DepthLoop n) :
    ∃ rounds, (step g)^[rounds] s = s.run g ∧ (s.run g).stack = [] := by
  fun_induction run g s with
  | case1 s done => exact ⟨0, rfl, done⟩
  | case2 s going ih =>
    obtain ⟨rounds, ends, empty⟩ := ih
    exact ⟨rounds + 1, by rw [Function.iterate_succ_apply, ends], empty⟩

/-- The states that the loop comes through, whatever unvisited nodes it is started at. -/
inductive Occurs (g : Digraph n) : DepthLoop n → Prop where
  | start : Occurs g .start
  | enter {s : DepthLoop n} {u : Fin n} : Occurs g s → s.stack = [] → s.visited.get u = false →
      Occurs g (s.enter u)
  | step {s : DepthLoop n} : Occurs g s → Occurs g (s.step g)

namespace Occurs

variable {s : DepthLoop n}

theorem run (occurs : Occurs g s) : Occurs g (s.run g) := by
  fun_induction DepthLoop.run g s with
  | case1 s done => exact occurs
  | case2 s going ih => exact ih occurs.step

theorem visit (occurs : Occurs g s) (idle : s.stack = []) (u : Fin n) : Occurs g (s.visit g u) := by
  unfold DepthLoop.visit
  split
  · exact occurs
  · rename_i fresh
    exact (occurs.enter idle (Bool.eq_false_iff.2 fresh)).run

theorem exists_holds (occurs : Occurs g s) :
    ∃ t progress, Sound g t ∧ Holds g s t ∧ Tallied g s progress := by
  induction occurs with
  | start => exact ⟨.empty, _, .empty, holds_start, tallied_start⟩
  | @enter s u _ idle fresh ih =>
    obtain ⟨t, progress, sound, holds, tallied⟩ := ih
    have unseen : u ∉ t.seen := mt (holds.visited u).2 (Bool.eq_false_iff.1 fresh)
    exact ⟨t.enter g u, progress, sound.enter_of_idle (holds.stack_eq_nil_iff.1 idle) unseen,
      holds.enter u, tallied.enter fresh (by simp [idle])⟩
  | step _ ih =>
    obtain ⟨t, progress, sound, holds, tallied⟩ := ih
    obtain ⟨progress', tallied'⟩ := tallied.step holds sound
    exact ⟨t.step g, progress', sound.step, holds.step sound, tallied'⟩

theorem exists_idxOf? (occurs : Occurs g s) {v : Fin n} (marked : s.onStack.get v = true) :
    ∃ place, s.path.idxOf? v = some place := by
  obtain ⟨t, -, -, holds, -⟩ := occurs.exists_holds
  refine Option.isSome_iff_exists.1 (List.isSome_idxOf?.2 ?_)
  rw [holds.path, List.mem_reverse]
  exact (holds.onStack v).1 marked

end Occurs

end DepthLoop

theorem occurs_depthLoop (g : Digraph n) (roots : List (Fin n)) :
    DepthLoop.Occurs g (g.depthLoop roots) := by
  induction roots using List.reverseRecOn with
  | nil => exact .start
  | append_singleton roots u ih =>
    have last : g.depthLoop (roots ++ [u]) = (g.depthLoop roots).visit g u := by
      simp [depthLoop]
    rw [last]
    exact ih.visit (depthLoop_idle g roots).1 u

theorem count_log_depthLoop (g : Digraph n) :
    let log := (g.depthLoop (List.finRange n)).log
    (∀ u, log.count (.entered u) = 1) ∧
      ∀ u place, log.count (.examined u place) = if place < (g.next u).length then 1 else 0 := by
  obtain ⟨-, progress, -, -, tallied⟩ := (occurs_depthLoop g (List.finRange n)).exists_holds
  have visited : ∀ u : Fin n, (g.depthLoop (List.finRange n)).visited.get u = true := by
    intro u
    refine ((holds_depthLoop g (List.finRange n)).visited u).2 ?_
    exact ((sound_traverse g).mem_seen u).2 (Or.inr (mem_finished_traverse g u))
  refine ⟨fun u => ?_, fun u place => ?_⟩
  · rw [tallied.entered u, visited u]
    rfl
  · have off : u ∉ (g.depthLoop (List.finRange n)).stack.map Prod.fst := by
      simp [(depthLoop_idle g (List.finRange n)).1]
    have all := tallied.others u off
    rw [visited u] at all
    rw [tallied.examined u place, all]
    rfl

/-- The loop emits the cycles that the recursion emits, in the same order. From any state it comes to an
end. It enters each node once, and looks at each entry of each row once. In every state that it comes
through, a node that is marked as being on the path is found there, and after each node that it is
started at the path is empty and no node is marked. -/
theorem depthLoop_descends (g : Digraph n) :
    let done := g.depthLoop (List.finRange n)
    done.cycles = g.recursiveCycles ∧ g.traverse.closed = g.recursiveCycles ∧
      (∀ s : DepthLoop n, ∃ rounds,
        (DepthLoop.step g)^[rounds] s = s.run g ∧ (s.run g).stack = []) ∧
      (∀ u, done.log.count (.entered u) = 1) ∧
      (∀ u place, done.log.count (.examined u place) =
        if place < (g.next u).length then 1 else 0) ∧
      (∀ s, DepthLoop.Occurs g s → ∀ v : Fin n, s.onStack.get v = true →
        ∃ place, s.path.idxOf? v = some place) ∧
      ∀ roots, (g.depthLoop roots).stack = [] ∧ (g.depthLoop roots).path = [] ∧
        ∀ v : Fin n, (g.depthLoop roots).onStack.get v = false := by
  intro done
  have cycles : done.cycles = g.recursiveCycles :=
    (holds_depthLoop g (List.finRange n)).cycles.trans (closed_traverse g)
  obtain ⟨entered, examined⟩ := count_log_depthLoop g
  exact ⟨cycles, closed_traverse g, DepthLoop.exists_rounds g, entered, examined,
    fun s occurs v marked => occurs.exists_idxOf? marked, depthLoop_idle g⟩

/-- The arc from 2 to 1 closes no cycle, as 1 is left before 2 is entered. -/
theorem depthLoop_descends_left_before :
    let g : Digraph 3 := ofArcs [(0, 1), (0, 2), (2, 1), (1, 0)]
    let s := (DepthLoop.start.enter 0).step g
    (g.depthLoop (List.finRange 3)).cycles = [[0, 1]] ∧ DepthLoop.Occurs g s ∧
      s.onStack.get (1 : Fin 3) = true ∧ ∃ place, s.path.idxOf? 1 = some place := by
  intro g s
  obtain ⟨cycles, -, -, -, -, marked, -⟩ := depthLoop_descends g
  have occurs : DepthLoop.Occurs g s := .step (.enter .start rfl rfl)
  have onPath : s.onStack.get (1 : Fin 3) = true := by decide +kernel
  refine ⟨cycles.trans ?_, occurs, onPath, marked s occurs 1 onPath⟩
  simp [g, recursiveCycles, List.finRange, descendTo, descend_cons_of_not_mem,
    descend_cons_of_mem_path, descend_cons_of_not_mem_path, ofArcs]

end FileGraph.Digraph
