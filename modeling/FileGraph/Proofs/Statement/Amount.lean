import FileGraph.Proofs.Statement.Reads
import Mathlib.Algebra.Order.BigOperators.Group.List
import Mathlib.Algebra.Order.Ring.Nat
import Mathlib.Data.String.Basic

/-! # How many references a text can hold

* `Statement.length_search_le`: no more statements begin in a text than it has characters.
* `Statement.sum_length_search_le`: statements do not overlap, so that their targets together are no
  longer than the text.
* `Extract.length_references_le`: all the references of a text.
-/

namespace FileGraph

theorem Text.length_le_utf8ByteSize (text : String) : text.toList.length ≤ text.utf8ByteSize := by
  have long : ∀ chars : List Char, chars.length ≤ String.utf8Len chars := by
    intro chars
    induction chars with
    | nil => exact Nat.zero_le _
    | cons c chars ih =>
      have positive := c.utf8Size_pos
      rw [List.length_cons, String.utf8Len_cons]
      omega
  have size := String.utf8ByteSize_ofList text.toList
  rw [String.ofList_toList] at size
  exact size ▸ long text.toList

namespace Statement

variable {recognise : Recogniser}

theorem length_search_le (pending : Nat) (p : Place) (text : List Char) :
    (search recognise pending p text).length ≤ text.length := by
  fun_induction search recognise pending p text with
  | case1 => exact Nat.le_refl _
  | case2 p pending c rest ih => exact Nat.le_succ_of_le ih
  | case3 p c rest silent ih => exact Nat.le_succ_of_le ih
  | case4 p c rest hit found ih => exact Nat.succ_le_succ ih

theorem Recogniser.Exact.size_le (exact : recognise.Exact) {before : Option Char} {text : List Char}
    {hit : Hit} (found : recognise before text = some hit) : hit.size ≤ text.length := by
  have whole := (exact before text hit found).length_le
  rw [List.length_append, List.length_append] at whole
  rw [Hit.size]
  omega

theorem sum_length_search_le (exact : recognise.Exact) (pending : Nat) (p : Place)
    (text : List Char) :
    ((search recognise pending p text).map (·.2.length)).sum ≤ text.length - pending := by
  fun_induction search recognise pending p text with
  | case1 => exact Nat.zero_le _
  | case2 p pending c rest ih =>
    rw [List.length_cons]
    omega
  | case3 p c rest silent ih =>
    rw [List.length_cons]
    omega
  | case4 p c rest hit found ih =>
    -- The rest of the search begins behind the statement, of which the target is a part.
    have whole := exact.size_le found
    have part : hit.target.length ≤ hit.size := by
      rw [Hit.size]
      omega
    rw [List.length_cons] at whole
    rw [List.map_cons, List.sum_cons, List.length_cons]
    dsimp only
    omega

/-! ## Blocks -/

namespace Go

theorem length_blockEntries_le (text : List Char) : (blockEntries text).length ≤ text.length := by
  calc (blockEntries text).length
      _ = ((search block 0 .start text).map fun spot =>
            (search entry 0 spot.1 spot.2).length).sum := List.length_flatMap
      _ ≤ ((search block 0 .start text).map (·.2.length)).sum :=
        List.sum_le_sum fun spot _ => length_search_le 0 spot.1 spot.2
      _ ≤ text.length := sum_length_search_le exact_block 0 .start text

end Go

end Statement

namespace Extract

open Statement

theorem length_merge (found : List (List (Place × List Char) × Kind)) :
    (merge found).length = (found.map (·.1.length)).sum := by
  simp [merge, spots, List.length_flatMap]

/-- Four forms of statement at most are looked for in a text. -/
theorem length_references_le (language : Language) (content : String) :
    (references language content).length ≤ 4 * (content.toList.length + 1) := by
  -- A form finds one target for each character at most.
  have searched : ∀ recognise : Recogniser,
      (search recognise 0 .start content.toList).length ≤ content.toList.length :=
    fun _ => length_search_le 0 .start content.toList
  have imports := searched Script.importFrom
  have requires := searched Script.requireCall
  have calls := searched Script.importCall
  have exports := searched Script.exportFrom
  have pythonImports := searched Line.pythonImport
  have pythonFroms := searched Line.pythonFrom
  have packageImports := searched (Line.packageUse Line.importWord)
  have usings := searched (Line.packageUse Line.usingWord)
  have includes := searched Line.includeFile
  have singles := searched Go.single
  have blocks := Go.length_blockEntries_le content.toList
  have uses := searched Rust.useDeclaration
  rw [references, length_merge]
  cases language
  all_goals
    simp only [found, List.map_cons, List.map_nil, List.sum_cons, List.sum_nil]
    omega

end Extract

end FileGraph
