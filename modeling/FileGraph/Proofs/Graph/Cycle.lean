import FileGraph.Graph.Cycle
import FileGraph.Proofs.Digraph.Component
import FileGraph.Proofs.Graph.Index
import Mathlib.Data.List.Perm.Lattice

/-! # Which cycles are recorded

* `key_eq_of_mem_iff` and `mem_iff_of_key_eq`: keys tell apart exactly the sets of members, the
  latter for names without line feeds.
* `record_of_mem`, `record_of_not_mem`: a cycle is kept exactly if its key is new.
* `mem_keys_foldl_record`: the keys that are there when some cycles have been recorded.
* `Recorded`: what holds of the cycles kept at any time.
* `covered_repair`: a node that can be on a cycle is on a kept one after its repair.
-/

namespace FileGraph.Cycle

variable {n : Nat} {index : Index n} {g : Digraph n} {kept : List (Kept n)}

/-! ## Keys -/

theorem mergeSort_eq_of_perm {names names' : List String} (perm : names.Perm names') :
    (names.mergeSort fun a b => a ≤ b) = names'.mergeSort fun a b => a ≤ b := by
  have sorted : ∀ texts : List String,
      (texts.mergeSort fun a b => a ≤ b).Pairwise fun a b => a ≤ b := by
    intro texts
    refine (List.pairwise_mergeSort ?_ ?_ texts).imp of_decide_eq_true
    · intro a b c first second
      simp only [decide_eq_true_eq] at first second ⊢
      exact String.le_trans first second
    · intro a b
      simpa using String.le_total a b
  -- The order is antisymmetric, so there is but one sorted arrangement.
  refine List.Perm.eq_of_pairwise ?_ (sorted names) (sorted names') ?_
  · exact fun a b _ _ => String.le_antisymm
  · exact (List.mergeSort_perm _ _).trans (perm.trans (List.mergeSort_perm _ _).symm)

theorem mergeSort_ne_nil {names : List String} (ne_nil : names ≠ []) :
    (names.mergeSort fun a b => a ≤ b) ≠ [] := by
  intro empty
  have := congrArg List.length empty
  simp [ne_nil] at this

theorem key_eq_of_mem_iff {cycle cycle' : List (Fin n)} (distinct : (cycle.map index.name).Nodup)
    (distinct' : (cycle'.map index.name).Nodup)
    (same : ∀ x, x ∈ cycle.map index.name ↔ x ∈ cycle'.map index.name) :
    key index cycle = key index cycle' := by
  unfold key
  rw [mergeSort_eq_of_perm ((List.perm_ext_iff_of_nodup distinct distinct').2 same)]

/-- Names without line feeds can be read off their joined text. -/
theorem intercalate_injective {names names' : List String} (ne_nil : names ≠ [])
    (ne_nil' : names' ≠ []) (plain : ∀ x ∈ names, '\n' ∉ x.toList)
    (plain' : ∀ x ∈ names', '\n' ∉ x.toList)
    (same : "\n".intercalate names = "\n".intercalate names') : names = names' := by
  -- Cutting the text at its line feeds gives back the names.
  have read : ∀ texts : List String, texts ≠ [] → (∀ x ∈ texts, '\n' ∉ x.toList) →
      ("\n".intercalate texts).toList.splitOn '\n' = texts.map String.toList := by
    intro texts ne_nil plain
    rw [String.toList_intercalate]
    exact List.splitOn_intercalate '\n' (by simpa using plain) (by simpa using ne_nil)
  have texts : names.map String.toList = names'.map String.toList := by
    rw [← read names ne_nil plain, ← read names' ne_nil' plain', same]
  exact List.map_injective_iff.2 (fun _ _ => String.toList_inj.1) texts

theorem mem_iff_of_key_eq {cycle cycle' : List (Fin n)} (ne_nil : cycle ≠ []) (ne_nil' : cycle' ≠ [])
    (plain : ∀ x ∈ cycle.map index.name, '\n' ∉ x.toList)
    (plain' : ∀ x ∈ cycle'.map index.name, '\n' ∉ x.toList)
    (same : key index cycle = key index cycle')
    (x : String) : x ∈ cycle.map index.name ↔ x ∈ cycle'.map index.name := by
  have sorted : ∀ members : List (Fin n), ∀ y,
      y ∈ (members.map index.name).mergeSort (fun a b => a ≤ b) ↔ y ∈ members.map index.name :=
    fun members y => (List.mergeSort_perm _ _).mem_iff
  have lists := intercalate_injective (mergeSort_ne_nil (by simpa using ne_nil))
    (mergeSort_ne_nil (by simpa using ne_nil'))
    (fun y member => plain y ((sorted cycle y).1 member))
    (fun y member => plain' y ((sorted cycle' y).1 member)) same
  rw [← sorted cycle, ← sorted cycle', lists]

/-! ## Keeping cycles -/

theorem any_key_iff {text : String} :
    kept.any (·.key == text) = true ↔ text ∈ kept.map (·.key) := by
  simp [List.any_eq_true, List.mem_map]

theorem record_of_mem {cycle : List (Fin n)} (known : key index cycle ∈ kept.map (·.key)) :
    record index kept cycle = kept :=
  if_pos (any_key_iff.2 known)

theorem record_of_not_mem {cycle : List (Fin n)} (new : key index cycle ∉ kept.map (·.key)) :
    record index kept cycle = kept ++ [⟨key index cycle, cycle⟩] :=
  if_neg (mt any_key_iff.1 new)

theorem record_eq_self_iff {cycle : List (Fin n)} :
    record index kept cycle = kept ↔ key index cycle ∈ kept.map (·.key) := by
  refine ⟨fun same => ?_, record_of_mem⟩
  by_contra new
  rw [record_of_not_mem new] at same
  simp at same

theorem mem_keys_record {cycle : List (Fin n)} {text : String} :
    text ∈ (record index kept cycle).map (·.key) ↔
      text ∈ kept.map (·.key) ∨ text = key index cycle := by
  by_cases known : key index cycle ∈ kept.map (·.key)
  · rw [record_of_mem known]
    exact ⟨Or.inl, fun either => either.elim id fun same => same ▸ known⟩
  · rw [record_of_not_mem known, List.map_append, List.mem_append, List.map_singleton,
      List.mem_singleton]

/-- The keys that are there after a run are those of all cycles that were offered, kept or not. -/
theorem mem_keys_foldl_record {cycles : List (List (Fin n))} {text : String} :
    text ∈ (cycles.foldl (record index) kept).map (·.key) ↔
      text ∈ kept.map (·.key) ∨ text ∈ cycles.map (key index) := by
  induction cycles generalizing kept with
  | nil => simp
  | cons cycle cycles ih =>
      rw [List.foldl_cons, ih, mem_keys_record, List.map_cons, List.mem_cons, or_assoc]

/-- What holds of the cycles kept at any time: each is a cycle under its own key, and no key stands
twice. -/
structure Recorded (index : Index n) (g : Digraph n) (kept : List (Kept n)) : Prop where
  keyed : ∀ k ∈ kept, k.key = key index k.cycle
  distinct : (kept.map (·.key)).Nodup
  isCycle : ∀ k ∈ kept, g.IsCycle k.cycle

theorem Recorded.nil : Recorded index g [] where
  keyed := by simp
  distinct := List.nodup_nil
  isCycle := by simp

theorem Recorded.record (recorded : Recorded index g kept) {cycle : List (Fin n)}
    (isCycle : g.IsCycle cycle) : Recorded index g (record index kept cycle) := by
  by_cases known : key index cycle ∈ kept.map (·.key)
  · rwa [record_of_mem known]
  · rw [record_of_not_mem known]
    refine ⟨?_, ?_, ?_⟩
    · intro k member
      cases List.mem_append.1 member with
      | inl member => exact recorded.keyed k member
      | inr member => exact List.mem_singleton.1 member ▸ rfl
    · rw [List.map_append]
      refine List.nodup_append.2 ⟨recorded.distinct, by simp, ?_⟩
      intro x member y last same
      obtain rfl : y = key index cycle := by simpa using last
      exact known (same ▸ member)
    · intro k member
      cases List.mem_append.1 member with
      | inl member => exact recorded.isCycle k member
      | inr member => exact List.mem_singleton.1 member ▸ isCycle

theorem subset_record (cycle : List (Fin n)) : kept ⊆ record index kept cycle := by
  by_cases known : key index cycle ∈ kept.map (·.key)
  · rw [record_of_mem known]
    exact List.Subset.refl kept
  · rw [record_of_not_mem known]
    exact List.subset_append_left kept _

/-- Whether or not it is dropped, a cycle with the key of the given one is kept. -/
theorem exists_key_record (index : Index n) (kept : List (Kept n)) (cycle : List (Fin n)) :
    ∃ k ∈ record index kept cycle, k.cycle = cycle ∨ k ∈ kept ∧ k.key = key index cycle := by
  by_cases known : key index cycle ∈ kept.map (·.key)
  · rw [record_of_mem known]
    obtain ⟨k, member, same⟩ := List.mem_map.1 known
    exact ⟨k, member, Or.inr ⟨member, same⟩⟩
  · rw [record_of_not_mem known]
    exact ⟨⟨key index cycle, cycle⟩, by simp, Or.inl rfl⟩

theorem Recorded.foldl_record (recorded : Recorded index g kept) {cycles : List (List (Fin n))}
    (isCycle : ∀ cycle ∈ cycles, g.IsCycle cycle) :
    Recorded index g (cycles.foldl (Cycle.record index) kept) := by
  induction cycles generalizing kept with
  | nil => exact recorded
  | cons cycle cycles ih =>
    exact ih (recorded.record (isCycle cycle List.mem_cons_self)) fun c member =>
      isCycle c (List.mem_cons_of_mem cycle member)

/-! ## Repair -/

theorem Recorded.repair (recorded : Recorded index g kept) (components : List (List (Fin n)))
    (u : Fin n) : Recorded index g (repair index g components kept u) := by
  unfold Cycle.repair
  dsimp only
  split
  · exact recorded
  · split
    · exact recorded
    · rename_i cycle found
      exact recorded.record (Digraph.isCycle_of_cycleThrough? found).1

theorem subset_repair (components : List (List (Fin n))) (u : Fin n) :
    kept ⊆ repair index g components kept u := by
  unfold repair
  dsimp only
  split
  · exact List.Subset.refl kept
  · split
    · exact List.Subset.refl kept
    · exact subset_record _

theorem Recorded.foldl_repair (recorded : Recorded index g kept) (components : List (List (Fin n)))
    (nodes : List (Fin n)) :
    Recorded index g (nodes.foldl (Cycle.repair index g components) kept) := by
  induction nodes generalizing kept with
  | nil => exact recorded
  | cons u nodes ih => exact ih (recorded.repair components u)

theorem subset_foldl_repair (components : List (List (Fin n))) (nodes : List (Fin n)) :
    kept ⊆ nodes.foldl (repair index g components) kept := by
  induction nodes generalizing kept with
  | nil => exact List.Subset.refl kept
  | cons u nodes ih => exact List.Subset.trans (subset_repair components u) ih

/-- A node is on a kept cycle after its repair, if it shares its component with another. Were the
cycle found for it dropped, a kept cycle with the same members would go through it already. -/
theorem covered_repair (recorded : Recorded index g kept)
    (plain : ∀ u, '\n' ∉ (index.name u).toList)
    (separate : ∀ {u v}, (∃ w, w ∈ g.next u) → (∃ w, w ∈ g.next v) → index.name u = index.name v →
      u = v)
    {u v : Fin n} (different : v ≠ u) (both : g.Mutual u v) :
    ∃ k ∈ repair index g g.components kept u, u ∈ k.cycle := by
  unfold repair
  dsimp only
  split
  · -- The component of `u` is large enough, so `u` is passed by only if it is covered.
    rename_i skipped
    have two := (Digraph.two_le_length_componentOf_iff g u).2 ⟨v, different, both⟩
    have covered : kept.any (·.cycle.contains u) = true := by
      simpa [Nat.not_lt.2 two] using skipped
    obtain ⟨k, member, inside⟩ := List.any_eq_true.1 covered
    exact ⟨k, member, by simpa using inside⟩
  · obtain ⟨cycle, found⟩ :=
      Digraph.exists_cycleThrough? (Digraph.mem_componentOf_iff g u) different both
    obtain ⟨isCycle, inside⟩ := Digraph.isCycle_of_cycleThrough? found
    rw [found]
    obtain ⟨k, member, same⟩ := exists_key_record index kept cycle
    refine ⟨k, member, ?_⟩
    cases same with
    | inl same => exact same ▸ inside
    | inr old =>
      -- The kept cycle goes through a node of the same name, which has a successor as `u` has.
      obtain ⟨old, same⟩ := old
      rw [recorded.keyed k old] at same
      have known := recorded.isCycle k old
      have plain : ∀ members : List (Fin n), ∀ x ∈ members.map index.name, '\n' ∉ x.toList :=
        fun members => List.forall_mem_map.2 fun u _ => plain u
      have named := (mem_iff_of_key_eq known.ne_nil isCycle.ne_nil (plain _) (plain _) same
        (index.name u)).2 (List.mem_map_of_mem inside)
      obtain ⟨w, member, alike⟩ := List.mem_map.1 named
      exact separate (known.exists_next member) (isCycle.exists_next inside) alike ▸ member

end FileGraph.Cycle
