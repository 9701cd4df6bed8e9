import FileGraph.Digraph.Traversal
import FileGraph.Proofs.Digraph.Reach

/-! # What a search in the depth finds

* `Settled`: how the order in which nodes are left fits the components of a graph.
* `Traversal.Sound`: what holds of every search under way: its path is a path of the graph, its
  closed cycles are cycles, and a node is left only when all it leads to is looked at.
* `Traversal.Sound.step`, `Traversal.Sound.run`, `Traversal.Sound.visit`: each part of the search
  keeps this.
* `sound_traverse` and `mem_finished_traverse`: it holds at the end, when all nodes are left.
-/

namespace FileGraph.Digraph

variable {n : Nat} {g : Digraph n}

/-! ## The order in which nodes are left -/

/-- `g.Settled later left`: whatever a node of `left` reaches was left before it, or the node can
be got to from, and reaches, a node that is left after it. The nodes of `later` are left after all
of `left`, in which the latest comes first. -/
def Settled (g : Digraph n) (later : List (Fin n)) : List (Fin n) → Prop
  | [] => True
  | u :: earlier =>
    (∀ v, g.Reaches u v → v ∈ u :: earlier ∨ ∃ w ∈ later, g.Mutual w u) ∧
      g.Settled (u :: later) earlier

theorem Settled.mono {later later' left : List (Fin n)} (settled : g.Settled later left)
    (sub : later ⊆ later') : g.Settled later' left := by
  induction left generalizing later later' with
  | nil => trivial
  | cons u earlier ih =>
    refine ⟨?_, ih settled.2 (List.cons_subset_cons u sub)⟩
    intro v path
    cases settled.1 v path with
    | inl before => exact Or.inl before
    | inr found =>
      obtain ⟨w, after, both⟩ := found
      exact Or.inr ⟨w, sub after, both⟩

/-- A node that reaches one left after it shares its component with some node left after it. -/
theorem Settled.exists_mutual {later left : List (Fin n)} (settled : g.Settled later left)
    {u v : Fin n} (member : u ∈ left) (path : g.Reaches u v) (after : v ∉ left) :
    ∃ w ∈ later, g.Mutual w u := by
  induction left generalizing later with
  | nil => exact absurd member List.not_mem_nil
  | cons x earlier ih =>
    have settles : g.Reaches x v → ∃ w ∈ later, g.Mutual w x := by
      intro path
      exact (settled.1 v path).resolve_left after
    cases List.mem_cons.1 member with
    | inl same =>
      obtain rfl := same
      exact settles path
    | inr member =>
      obtain ⟨w, near, both⟩ := ih settled.2 member fun before =>
        after (List.mem_cons_of_mem x before)
      cases List.mem_cons.1 near with
      | inl same =>
        -- The node found is `x` itself, which reaches `v` by way of `u`.
        obtain rfl := same
        obtain ⟨y, near, both'⟩ := settles (both.1.trans path)
        exact ⟨y, near, both'.trans both⟩
      | inr near => exact ⟨w, near, both⟩

namespace Traversal

/-! ## Frames -/

/-- What is left to look at in each frame is part of a row, and all else of that row is seen. -/
def Looked (g : Digraph n) (seen : List (Fin n)) (frames : List (Frame n)) : Prop :=
  ∀ f ∈ frames, f.rest ⊆ g.next f.node ∧ ∀ v ∈ g.next f.node, v ∈ f.rest ∨ v ∈ seen

theorem Looked.mono {seen seen' : List (Fin n)} {frames : List (Frame n)}
    (looked : Looked g seen frames) (sub : seen ⊆ seen') : Looked g seen' frames := by
  intro f member
  refine ⟨(looked f member).1, ?_⟩
  intro v arc
  exact ((looked f member).2 v arc).imp_right (@sub v)

theorem Looked.of_cons {seen : List (Fin n)} {f : Frame n} {frames : List (Frame n)}
    (looked : Looked g seen (f :: frames)) : Looked g seen frames :=
  fun f member => looked f (List.mem_cons_of_mem _ member)

theorem Looked.enter {seen : List (Fin n)} {frames : List (Frame n)}
    (looked : Looked g seen frames) (v : Fin n) : Looked g seen (⟨v, g.next v⟩ :: frames) := by
  intro f member
  cases List.mem_cons.1 member with
  | inl same =>
    obtain rfl := same
    exact ⟨List.Subset.refl _, fun _ => Or.inl⟩
  | inr member => exact looked f member

theorem Looked.drop {seen : List (Fin n)} {u v : Fin n} {later : List (Fin n)}
    {below : List (Frame n)} (looked : Looked g seen (⟨u, v :: later⟩ :: below)) :
    Looked g (v :: seen) (⟨u, later⟩ :: below) := by
  intro f member
  cases List.mem_cons.1 member with
  | inl same =>
    obtain rfl := same
    -- In the frame itself `v` was left to look at, and is seen now.
    obtain ⟨sub, rest⟩ := looked _ List.mem_cons_self
    refine ⟨fun w waits => sub (List.mem_cons_of_mem v waits), ?_⟩
    intro w arc
    have := rest w arc
    simp only [List.mem_cons] at this ⊢
    tauto
  | inr member => exact (looked.of_cons.mono (List.subset_cons_self v seen)) f member

/-! ## What holds of a search under way -/

/-- What holds of every search under way. -/
structure Sound (g : Digraph n) (t : Traversal n) : Prop where
  nodup : (t.path ++ t.finished).Nodup
  mem_seen : ∀ v, v ∈ t.seen ↔ v ∈ t.path ∨ v ∈ t.finished
  chain : List.IsChain (fun u v => u ∈ g.next v) t.path
  looked : Looked g t.seen t.frames
  left : ∀ u ∈ t.finished, ∀ v ∈ g.next u, v ∈ t.seen
  settled : g.Settled t.path t.finished
  closed : ∀ cycle ∈ t.closed, g.IsCycle cycle

theorem Sound.empty : Sound g .empty where
  nodup := List.nodup_nil
  mem_seen := by simp [Traversal.empty, path]
  chain := List.isChain_nil
  looked := by simp [Traversal.empty, Looked]
  left := by simp [Traversal.empty]
  settled := trivial
  closed := by simp [Traversal.empty]

namespace Sound

variable {t : Traversal n}

/-- Going down to an unseen node, which must succeed the present one if there is one. The frames
may have that node dropped from what is left to look at. -/
theorem enter (sound : Sound g t) {v : Fin n} {frames : List (Frame n)}
    (path : frames.map (·.node) = t.path) (looked : Looked g (v :: t.seen) frames)
    (fresh : v ∉ t.seen) (arc : ∀ u ∈ t.path.head?, v ∈ g.next u) :
    Sound g (({ t with frames := frames } : Traversal n).enter g v) := by
  have path : (({ t with frames := frames } : Traversal n).enter g v).path = v :: t.path := by
    rw [← path]
    rfl
  have off : v ∉ t.path ++ t.finished := fun again =>
    fresh ((sound.mem_seen v).2 (List.mem_append.1 again))
  exact {
    nodup := by
      rw [path]
      exact List.nodup_cons.2 ⟨off, sound.nodup⟩
    mem_seen := by
      intro w
      rw [path]
      show w ∈ v :: t.seen ↔ w ∈ v :: t.path ∨ w ∈ t.finished
      rw [List.mem_cons, List.mem_cons, sound.mem_seen, or_assoc]
    chain := by
      rw [path]
      exact List.isChain_cons.2 ⟨arc, sound.chain⟩
    looked := looked.enter v
    left := fun u member w succ => List.mem_cons_of_mem v (sound.left u member w succ)
    settled := by
      rw [path]
      exact sound.settled.mono (List.subset_cons_self v t.path)
    closed := sound.closed }

theorem leave (sound : Sound g t) {u : Fin n} {below : List (Frame n)}
    (frames : t.frames = ⟨u, []⟩ :: below) :
    Sound g { t with frames := below, finished := u :: t.finished } := by
  have path : t.path = u :: below.map (·.node) := by simp [Traversal.path, frames]
  have looked : Looked g t.seen (⟨u, []⟩ :: below) := frames ▸ sound.looked
  -- `u` goes over from the path to the nodes that are left, and nothing else moves.
  have swap : List.Perm (t.path ++ t.finished) (below.map (·.node) ++ u :: t.finished) := by
    rw [path, List.cons_append]
    exact List.perm_middle.symm
  have mem_seen : ∀ v, v ∈ t.seen ↔ v ∈ below.map (·.node) ∨ v ∈ u :: t.finished := by
    intro v
    rw [sound.mem_seen, ← List.mem_append, ← List.mem_append]
    exact swap.mem_iff
  have left : ∀ w ∈ u :: t.finished, ∀ v ∈ g.next w, v ∈ t.seen := by
    intro w member v arc
    cases List.mem_cons.1 member with
    | inl same =>
      obtain rfl := same
      exact ((looked _ List.mem_cons_self).2 v arc).resolve_left List.not_mem_nil
    | inr member => exact sound.left w member v arc
  have above : ∀ v ∈ below.map (·.node), g.Reaches v u := by
    intro v member
    exact reaches_head_of_isChain (path ▸ sound.chain) (List.mem_cons_of_mem u member)
  -- A path from `u` stays among the nodes that are left, or comes to a node below `u` on the path.
  have settles : ∀ v, g.Reaches u v →
      v ∈ u :: t.finished ∨ ∃ w ∈ below.map (·.node), g.Mutual w u := by
    intro v leads
    induction leads with
    | refl => exact Or.inl List.mem_cons_self
    | @step x w leads arc ih =>
      cases ih with
      | inl member =>
        cases (mem_seen w).1 (left x member w arc) with
        | inl onPath => exact Or.inr ⟨w, onPath, above w onPath, leads.step arc⟩
        | inr done => exact Or.inl done
      | inr found => exact Or.inr found
  exact {
    nodup := swap.nodup_iff.1 sound.nodup
    mem_seen := mem_seen
    chain := (path ▸ sound.chain).of_cons
    looked := looked.of_cons
    left := left
    settled := ⟨settles, path ▸ sound.settled⟩
    closed := sound.closed }

theorem passOver (sound : Sound g t) {u v : Fin n} {later : List (Fin n)} {below : List (Frame n)}
    (frames : t.frames = ⟨u, v :: later⟩ :: below) (known : v ∈ t.seen) :
    Sound g { t with frames := ⟨u, later⟩ :: below } := by
  have path : ({ t with frames := ⟨u, later⟩ :: below } : Traversal n).path = t.path := by
    simp [Traversal.path, frames]
  have looked : Looked g t.seen (⟨u, v :: later⟩ :: below) := frames ▸ sound.looked
  exact {
    nodup := by rw [path]; exact sound.nodup
    mem_seen := by rw [path]; exact sound.mem_seen
    chain := by rw [path]; exact sound.chain
    looked := looked.drop.mono (List.cons_subset.2 ⟨known, List.Subset.refl _⟩)
    left := sound.left
    settled := by rw [path]; exact sound.settled
    closed := sound.closed }

theorem isCycle_sliceFrom (sound : Sound g t) {u v : Fin n} {below : List (Fin n)}
    (path : t.path = u :: below) (onPath : v ∈ t.path) (arc : v ∈ g.next u) :
    g.IsCycle (t.sliceFrom v) := by
  -- The path is written from its end, so that the slice is what stands above `v`, turned round.
  obtain ⟨above, beneath, split⟩ := List.append_of_mem onPath
  have nodup : (above ++ v :: beneath).Nodup := split ▸ (List.nodup_append.1 sound.nodup).1
  have chain : List.IsChain (fun a b => a ∈ g.next b) ((above ++ [v]) ++ beneath) := by
    simpa [split] using sound.chain
  have off : v ∉ above := fun again => (List.nodup_append.1 nodup).2.2 v again v (by simp) rfl
  have slice : t.sliceFrom v = v :: above.reverse := by
    have before : ∀ w ∈ above, (w != v) = true := by
      intro w member
      simpa using fun same : w = v => off (same ▸ member)
    rw [sliceFrom, split, List.takeWhile_append_of_pos before]
    simp
  have turn : v :: above.reverse = (above ++ [v]).reverse := by simp
  rw [slice]
  apply IsCycle.of_row
  · rw [turn, List.nodup_reverse]
    exact nodup.sublist (by simp)
  · rw [turn, List.isChain_reverse]
    exact chain.left_of_append
  · intro w last
    -- The last node of the slice is the first of the path, which is the present node.
    have first : (above ++ [v]).head? = some u := by
      have first : (above ++ v :: beneath).head? = some u := by rw [← split, path]; rfl
      cases above with
      | nil => simpa using first
      | cons x above => simpa using first
    rw [turn, List.getLast?_reverse, first] at last
    obtain rfl : u = w := by simpa using last
    exact arc

theorem step (sound : Sound g t) : Sound g (t.step g) := by
  unfold Traversal.step
  split
  · exact sound
  · rename_i u below frames
    exact sound.leave frames
  · -- A successor `v` of the present node `u` is looked at: it is gone down to if it is unseen, and
    -- closes a cycle if it is on the path.
    rename_i u v later below frames
    have path : t.path = u :: below.map (·.node) := by simp [Traversal.path, frames]
    have looked : Looked g t.seen (⟨u, v :: later⟩ :: below) := frames ▸ sound.looked
    have arc : v ∈ g.next u := (looked _ List.mem_cons_self).1 List.mem_cons_self
    dsimp only
    split
    · rename_i fresh
      refine sound.enter path.symm looked.drop (by simpa using fresh) ?_
      intro w present
      obtain rfl : u = w := by simpa [path] using present
      exact arc
    · rename_i known
      have known : v ∈ t.seen := by simpa using known
      split
      · rename_i onPath
        have passed := sound.passOver frames known
        refine { passed with closed := ?_ }
        intro cycle member
        cases List.mem_append.1 member with
        | inl member => exact sound.closed cycle member
        | inr member =>
          obtain rfl := List.mem_singleton.1 member
          exact sound.isCycle_sliceFrom path (by simpa using onPath) arc
      · exact sound.passOver frames known

theorem run (sound : Sound g t) : Sound g (t.run g) := by
  fun_induction Traversal.run g t with
  | case1 => exact sound
  | case2 t going ih => exact ih sound.step

end Sound

/-! ## Whole searches -/

theorem frames_run (g : Digraph n) (t : Traversal n) : (t.run g).frames = [] := by
  fun_induction Traversal.run g t with
  | case1 t done => exact done
  | case2 t going ih => exact ih

theorem seen_subset_step (g : Digraph n) (t : Traversal n) : t.seen ⊆ (t.step g).seen := by
  unfold step
  split
  · exact List.Subset.refl _
  · exact List.Subset.refl _
  · dsimp only
    split
    · exact List.subset_cons_self _ _
    · split <;> exact List.Subset.refl _

theorem seen_subset_run (g : Digraph n) (t : Traversal n) : t.seen ⊆ (t.run g).seen := by
  fun_induction Traversal.run g t with
  | case1 => exact List.Subset.refl _
  | case2 t going ih => exact List.Subset.trans (seen_subset_step g t) ih

theorem seen_subset_visit (g : Digraph n) (t : Traversal n) (u : Fin n) :
    t.seen ⊆ (t.visit g u).seen := by
  unfold visit
  split
  · exact List.Subset.refl _
  · exact List.Subset.trans (List.subset_cons_self u t.seen) (seen_subset_run g (t.enter g u))

theorem mem_seen_visit (g : Digraph n) (t : Traversal n) (u : Fin n) :
    u ∈ (t.visit g u).seen := by
  unfold visit
  split
  · rename_i known
    simpa using known
  · exact seen_subset_run g _ List.mem_cons_self

theorem frames_visit {t : Traversal n} (idle : t.frames = []) (u : Fin n) :
    (t.visit g u).frames = [] := by
  unfold visit
  split
  · exact idle
  · exact frames_run g _

theorem Sound.enter_of_idle {t : Traversal n} (sound : Sound g t) (idle : t.frames = []) {u : Fin n}
    (fresh : u ∉ t.seen) : Sound g (t.enter g u) := by
  have path : t.path = [] := by simp [Traversal.path, idle]
  exact sound.enter rfl (sound.looked.mono (List.subset_cons_self u t.seen)) fresh (by simp [path])

theorem Sound.visit {t : Traversal n} (sound : Sound g t) (idle : t.frames = []) (u : Fin n) :
    Sound g (t.visit g u) := by
  unfold Traversal.visit
  split
  · exact sound
  · rename_i fresh
    exact (sound.enter_of_idle idle (by simpa using fresh)).run

theorem sound_foldl_visit (roots : List (Fin n)) {t : Traversal n} (sound : Sound g t)
    (idle : t.frames = []) :
    Sound g (roots.foldl (visit g) t) ∧ (roots.foldl (visit g) t).frames = [] ∧
      ∀ v, v ∈ roots ∨ v ∈ t.seen → v ∈ (roots.foldl (visit g) t).seen := by
  induction roots generalizing t with
  | nil => exact ⟨sound, idle, fun v member => member.resolve_left List.not_mem_nil⟩
  | cons u roots ih =>
    obtain ⟨sound', idle', seen⟩ := ih (sound.visit idle u) (frames_visit idle u)
    refine ⟨sound', idle', ?_⟩
    intro v member
    cases member with
    | inl member =>
      cases List.mem_cons.1 member with
      | inl same => exact seen v (Or.inr (same ▸ mem_seen_visit g t u))
      | inr member => exact seen v (Or.inl member)
    | inr member => exact seen v (Or.inr (seen_subset_visit g t u member))

end Traversal

theorem sound_traverse (g : Digraph n) : Traversal.Sound g g.traverse :=
  (Traversal.sound_foldl_visit _ Traversal.Sound.empty rfl).1

theorem path_traverse (g : Digraph n) : g.traverse.path = [] := by
  rw [Traversal.path, traverse,
    (Traversal.sound_foldl_visit (List.finRange n) Traversal.Sound.empty rfl).2.1]
  rfl

theorem mem_finished_traverse (g : Digraph n) (v : Fin n) : v ∈ g.traverse.finished := by
  have seen : v ∈ g.traverse.seen :=
    (Traversal.sound_foldl_visit (List.finRange n) Traversal.Sound.empty rfl).2.2 v
      (Or.inl (List.mem_finRange v))
  cases ((sound_traverse g).mem_seen v).1 seen with
  | inl onPath =>
    rw [path_traverse] at onPath
    exact absurd onPath List.not_mem_nil
  | inr done => exact done

theorem nodup_finished_traverse (g : Digraph n) : g.traverse.finished.Nodup :=
  (List.nodup_append.1 (sound_traverse g).nodup).2.1

theorem settled_traverse (g : Digraph n) : g.Settled [] g.traverse.finished :=
  path_traverse g ▸ (sound_traverse g).settled

theorem isCycle_of_mem_closed {cycle : List (Fin n)} (member : cycle ∈ g.traverse.closed) :
    g.IsCycle cycle :=
  (sound_traverse g).closed cycle member

end FileGraph.Digraph
