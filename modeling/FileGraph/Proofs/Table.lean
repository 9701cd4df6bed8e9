import FileGraph.Proofs.Path
import FileGraph.Table
import Mathlib.Algebra.Order.Ring.Nat

/-! # The layout of tables

A line of a table is a row of pieces with the same mark in front of the first, between any two and
behind the last. Where the marks stand depends on the widths of the columns only.

* `bordered`: such a line.
* `border`, `Divided`: the places of the marks, and what a line over columns of given widths looks
  like.
* `divided_bordered`: pieces that fill their columns make such a line.
* `max?_column`, `length_cell_le`: a column is as wide as its longest text.
* `map_toList_lines`, `splitOn_render`: the lines of a table are bordered, and can be read off its
  text.
* `render_take`: what stands beyond the headers is left out.
* `render_layout`: the lines of a table, and what stands where in them.
-/

namespace FileGraph.Table

/-! ## Bordered lines -/

/-- Pieces with a mark in front of, between and behind them. -/
def bordered (mark : Char) (pieces : List (List Char)) : List Char :=
  mark :: pieces.flatMap (· ++ [mark])

/-- The place of the mark in front of column `c`, or behind the last column. A column takes up its
mark, its width and a blank on either side. -/
def border (widths : List Nat) (c : Nat) : Nat :=
  ((widths.take c).map (· + 3)).sum

/-- A line over columns of the given widths: a mark at every border, and between two borders what
`piece` says of the column and its width. -/
structure Divided (widths : List Nat) (mark : Char) (piece : Nat → Nat → List Char)
    (text : List Char) : Prop where
  length : text.length = border widths widths.length + 1
  marked : ∀ c ≤ widths.length, text[border widths c]? = some mark
  filled : ∀ c width, widths[c]? = some width →
    (text.drop (border widths c + 1)).take (width + 2) = piece c width

variable {mark : Char} {widths : List Nat} {pieces : List (List Char)}
  {piece : Nat → Nat → List Char}

theorem bordered_cons (first : List Char) (later : List (List Char)) :
    bordered mark (first :: later) = mark :: (first ++ bordered mark later) := by
  simp [bordered]

theorem border_cons_succ (width : Nat) (later : List Nat) (c : Nat) :
    border (width :: later) (c + 1) = width + 3 + border later c := by
  simp [border]

theorem drop_bordered (sizes : pieces.map (·.length) = widths.map (· + 2)) (c : Nat) :
    (bordered mark pieces).drop (border widths c) = bordered mark (pieces.drop c) := by
  induction pieces generalizing widths c with
  | nil =>
      obtain rfl : widths = [] := by simpa using sizes.symm
      simp [border]
  | cons first later ih =>
      cases widths with
      | nil => cases sizes
      | cons width widths =>
          obtain ⟨size, sizes⟩ := List.cons.inj sizes
          cases c with
          | zero => simp [border]
          | succ c =>
              have skipped : (mark :: first).length = width + 3 := congrArg (· + 1) size
              rw [border_cons_succ, bordered_cons, ← List.cons_append, ← List.drop_drop,
                List.drop_left' skipped, ih sizes, List.drop_succ_cons]

theorem divided_bordered
    (sizes : ∀ c width, widths[c]? = some width → (piece c width).length = width + 2) :
    Divided widths mark piece (bordered mark (widths.mapIdx piece)) := by
  have lengths : (widths.mapIdx piece).map (·.length) = widths.map (· + 2) := by
    refine List.ext_getElem? fun c => ?_
    rw [List.getElem?_map, List.getElem?_map, List.getElem?_mapIdx]
    cases given : widths[c]? with
    | none => rfl
    | some width => exact congrArg some (sizes c width given)
  have left : ∀ c, (bordered mark (widths.mapIdx piece)).drop (border widths c) =
      bordered mark ((widths.mapIdx piece).drop c) := drop_bordered lengths
  refine ⟨?_, fun c _ => ?_, fun c width given => ?_⟩
  · -- Behind the last border there is nothing but its mark.
    have last := congrArg List.length (left widths.length)
    rw [List.length_drop, List.drop_of_length_le (by simp)] at last
    change _ = 1 at last
    omega
  · rw [← List.head?_drop, left]
    rfl
  · obtain ⟨bound, rfl⟩ := List.getElem?_eq_some_iff.1 given
    have inside : c < (widths.mapIdx piece).length := by simpa using bound
    rw [← List.drop_drop, left, List.drop_eq_getElem_cons inside, bordered_cons,
      List.drop_succ_cons, List.drop_zero, List.getElem_mapIdx, List.take_left' (sizes c _ given)]

theorem not_mem_bordered {c : Char} (apart : c ≠ mark) (free : ∀ piece ∈ pieces, c ∉ piece) :
    c ∉ bordered mark pieces := by
  intro member
  cases List.mem_cons.1 member with
  | inl first => exact apart first
  | inr later =>
      obtain ⟨piece, given, inside⟩ := List.mem_flatMap.1 later
      cases List.mem_append.1 inside with
      | inl own => exact free piece given own
      | inr last => exact apart (List.mem_singleton.1 last)

/-! ## Rules and rows -/

/-- A piece of a rule. -/
def dashes (width : Nat) : List Char :=
  List.replicate (width + 2) '-'

/-- A cell: a blank, the text, blanks up to the width of the column, and a blank. -/
def filledCell (text : String) (width : Nat) : List Char :=
  ' ' :: (text.toList ++ List.replicate (width - text.length) ' ') ++ [' ']

/-- A rule over the columns of a table. -/
def ruleOver (widths : List Nat) : List Char :=
  bordered '+' (widths.mapIdx fun _ => dashes)

/-- A row, drawn over the columns of a table. -/
def rowOver (widths : List Nat) (row : List String) : List Char :=
  bordered '|' (widths.mapIdx fun c => filledCell (cell row c))

theorem length_filledCell {text : String} {width : Nat} (fits : text.length ≤ width) :
    (filledCell text width).length = width + 2 := by
  simp only [filledCell, List.length_append, List.length_cons, List.length_replicate,
    String.length_toList, List.length_nil]
  omega

theorem toList_rule (widths : List Nat) : (rule widths).toList = ruleOver widths := by
  have general : ∀ front : String,
      (widths.foldl (fun line width => line ++ repeated (width + 2) '-' ++ "+") front).toList =
        front.toList ++ (widths.map dashes).flatMap (· ++ ['+']) := by
    induction widths with
    | nil => simp
    | cons width later ih =>
        intro front
        rw [List.foldl_cons, ih]
        simp [repeated, dashes]
  have pieces : widths.mapIdx (fun _ => dashes) = widths.map dashes :=
    List.ext_getElem (by simp) (by simp)
  rw [ruleOver, pieces]
  exact general "+"

theorem toList_line (cells : List (String × Nat)) :
    (line cells).toList = bordered '|' (cells.map fun (text, width) => filledCell text width) := by
  have general : ∀ front : String,
      (cells.foldl (fun line (text, width) =>
        line ++ " " ++ text ++ repeated (width - text.length) ' ' ++ " |") front).toList =
        front.toList ++
          (cells.map fun (text, width) => filledCell text width).flatMap (· ++ ['|']) := by
    induction cells with
    | nil => simp
    | cons cell later ih =>
        intro front
        rw [List.foldl_cons, ih]
        simp [repeated, filledCell]
  exact general "|"

theorem toList_line_rowCells (widths : List Nat) (row : List String) :
    (line (rowCells widths row)).toList = rowOver widths row := by
  rw [toList_line]
  exact congrArg _ (List.ext_getElem (by simp [rowCells]) (by simp [rowCells]))

/-! ## Widths -/

variable {headers row : List String} {rows : List (List String)}

@[simp]
theorem length_columnWidths (headers : List String) (rows : List (List String)) :
    (columnWidths headers rows).length = headers.length := by
  simp [columnWidths]

theorem getElem?_columnWidths (headers : List String) (rows : List (List String)) (c : Nat) :
    (columnWidths headers rows)[c]? = headers[c]?.map (columnWidth rows · c) := by
  rw [columnWidths, List.getElem?_mapIdx]

theorem max?_column (rows : List (List String)) (header : String) (c : Nat) :
    ((header :: rows.map (cell · c)).map (·.length)).max? = some (columnWidth rows header c) := by
  rw [List.map_cons, List.max?_cons', List.map_map, List.foldl_map]
  rfl

theorem length_cell_le (shown : row = headers ∨ row ∈ rows) {c width : Nat}
    (given : (columnWidths headers rows)[c]? = some width) : (cell row c).length ≤ width := by
  rw [getElem?_columnWidths] at given
  obtain ⟨header, here, rfl⟩ := Option.map_eq_some_iff.1 given
  refine (List.max?_eq_some_iff.1 (max?_column rows header c)).2 _ ?_
  rw [List.map_cons, List.map_map, List.mem_cons]
  cases shown with
  | inl same =>
      refine .inl ?_
      rw [same, cell, here]
      rfl
  | inr member => exact .inr (List.mem_map_of_mem (f := fun row => (cell row c).length) member)

/-! ## Lines -/

theorem zip_eq_rowCells (same : widths.length = headers.length) :
    headers.zip widths = rowCells widths headers := by
  refine List.ext_getElem (by simp [rowCells, same]) fun c inside _ => ?_
  have bound : c < headers.length := by
    rw [List.length_zip] at inside
    omega
  simp [rowCells, cell, bound]

theorem divided_ruleOver (widths : List Nat) :
    Divided widths '+' (fun _ => dashes) (ruleOver widths) :=
  divided_bordered fun _ _ _ => List.length_replicate

theorem divided_rowOver (shown : row = headers ∨ row ∈ rows) :
    Divided (columnWidths headers rows) '|' (fun c => filledCell (cell row c))
      (rowOver (columnWidths headers rows) row) :=
  divided_bordered fun _ _ given => length_filledCell (length_cell_le shown given)

theorem map_toList_lines (headers : List String) (rows : List (List String)) :
    let widths := columnWidths headers rows
    (lines headers rows).map (·.toList) =
      [ruleOver widths, rowOver widths headers, ruleOver widths] ++ rows.map (rowOver widths) ++
        [ruleOver widths] := by
  intro widths
  simp only [lines, List.map_append, List.map_cons, List.map_nil, List.map_map, Function.comp_def,
    toList_rule, toList_line_rowCells, zip_eq_rowCells (length_columnWidths headers rows), widths]

theorem not_mem_ruleOver (widths : List Nat) : '\n' ∉ ruleOver widths := by
  refine not_mem_bordered (by decide) fun piece member => ?_
  obtain ⟨c, _, rfl⟩ := List.mem_mapIdx.1 member
  simp [dashes]

theorem not_mem_rowOver (plain : ∀ text ∈ row, '\n' ∉ text.toList) : '\n' ∉ rowOver widths row := by
  refine not_mem_bordered (by decide) fun piece member => ?_
  obtain ⟨c, _, rfl⟩ := List.mem_mapIdx.1 member
  -- A cell that the row does not have is empty.
  have own : '\n' ∉ (cell row c).toList := by
    rw [cell]
    cases found : row[c]? with
    | none => simp
    | some text => exact plain text (List.mem_of_getElem? found)
  simp [filledCell, own]

theorem splitOn_render (headerPlain : ∀ header ∈ headers, '\n' ∉ header.toList)
    (rowsPlain : ∀ row ∈ rows, ∀ text ∈ row, '\n' ∉ text.toList) :
    Text.splitOn '\n' (render headers rows).toList = (lines headers rows).map (·.toList) := by
  have feedless : ∀ line ∈ (lines headers rows).map (·.toList), '\n' ∉ line := by
    have rule := not_mem_ruleOver (columnWidths headers rows)
    rw [map_toList_lines]
    simp only [List.forall_mem_append, List.forall_mem_cons, List.forall_mem_map]
    exact ⟨⟨⟨rule, not_mem_rowOver headerPlain, rule, List.forall_mem_nil _⟩,
      fun row given => not_mem_rowOver (rowsPlain row given)⟩, rule, List.forall_mem_nil _⟩
  rw [render, String.toList_intercalate, Text.splitOn_eq]
  exact List.splitOn_intercalate '\n' feedless (by simp [lines])

/-! ## Texts beyond the headers -/

theorem cell_take {count c : Nat} (bound : c < count) : cell (row.take count) c = cell row c := by
  rw [cell, cell, List.getElem?_take_of_lt bound]

theorem columnWidths_take (headers : List String) (rows : List (List String)) :
    columnWidths headers (rows.map (·.take headers.length)) = columnWidths headers rows := by
  refine List.ext_getElem (by simp) fun c inside _ => ?_
  have bound : c < headers.length := by simpa using inside
  simp [columnWidths, columnWidth, List.foldl_map, cell_take bound]

theorem rowCells_take (widths : List Nat) (row : List String) :
    rowCells widths (row.take widths.length) = rowCells widths row := by
  refine List.ext_getElem (by simp [rowCells]) fun c inside _ => ?_
  have bound : c < widths.length := by simpa [rowCells] using inside
  simp [rowCells, cell_take bound]

/-- What stands beyond the last header is not in the table. -/
theorem render_take (headers : List String) (rows : List (List String)) :
    render headers (rows.map (·.take headers.length)) = render headers rows := by
  have cells := rowCells_take (columnWidths headers rows)
  rw [length_columnWidths] at cells
  simp only [render, lines, columnWidths_take, List.map_map, Function.comp_def, cells]

/-! ## The whole table -/

/-- A table has a line for each row and four more: the headers, and rules around them and at the end.
All of them have the marks of their borders at the same places. Between two borders there is a cell,
its text from the left, and a column is as wide as its longest text. -/
theorem render_layout (headerPlain : ∀ header ∈ headers, '\n' ∉ header.toList)
    (rowsPlain : ∀ row ∈ rows, ∀ text ∈ row, '\n' ∉ text.toList) :
    let lines := Text.splitOn '\n' (render headers rows).toList
    lines.length = rows.length + 4 ∧
      render headers (rows.map (·.take headers.length)) = render headers rows ∧
      ∃ widths : List Nat, widths.length = headers.length ∧
        (∀ c header, headers[c]? = some header →
          widths[c]? = ((header :: rows.map (cell · c)).map (·.length)).max?) ∧
        (∀ line ∈ lines, line.length = border widths headers.length + 1) ∧
        (∀ i ∈ [0, 2, rows.length + 3], ∃ line, lines[i]? = some line ∧
          Divided widths '+' (fun _ => dashes) line) ∧
        (∃ line, lines[1]? = some line ∧
          Divided widths '|' (fun c => filledCell (cell headers c)) line) ∧
        ∀ r row, rows[r]? = some row → ∃ line, lines[r + 3]? = some line ∧
          Divided widths '|' (fun c => filledCell (cell row c)) line := by
  intro lines
  let widths := columnWidths headers rows
  -- The lines of the text are the lines that were drawn, over the same columns.
  have drawn : lines = [ruleOver widths, rowOver widths headers, ruleOver widths] ++
      rows.map (rowOver widths) ++ [ruleOver widths] :=
    (splitOn_render headerPlain rowsPlain).trans (map_toList_lines headers rows)
  have rule := divided_ruleOver widths
  have first : Divided widths '|' _ (rowOver widths headers) := divided_rowOver (.inl rfl)
  have body : ∀ row ∈ rows, Divided widths '|' _ (rowOver widths row) :=
    fun row given => divided_rowOver (.inr given)
  refine ⟨?_, render_take headers rows, widths, length_columnWidths headers rows, ?_, ?_, ?_, ?_, ?_⟩
  · rw [drawn]
    simp
  · intro c header given
    rw [max?_column, getElem?_columnWidths, given]
    rfl
  · have wide : ∀ {mark piece line}, Divided widths mark piece line →
        line.length = border widths headers.length + 1 := fun divided =>
      length_columnWidths headers rows ▸ divided.length
    rw [drawn]
    simp only [List.forall_mem_append, List.forall_mem_cons, List.forall_mem_map]
    exact ⟨⟨⟨wide rule, wide first, wide rule, List.forall_mem_nil _⟩,
      fun row given => wide (body row given)⟩, wide rule, List.forall_mem_nil _⟩
  · have places : lines[0]? = some (ruleOver widths) ∧ lines[2]? = some (ruleOver widths) ∧
        lines[rows.length + 3]? = some (ruleOver widths) := by
      rw [drawn]
      exact ⟨rfl, rfl, by simp⟩
    simp only [List.forall_mem_cons]
    exact ⟨⟨_, places.1, rule⟩, ⟨_, places.2.1, rule⟩, ⟨_, places.2.2, rule⟩, List.forall_mem_nil _⟩
  · refine ⟨_, ?_, first⟩
    rw [drawn]
    rfl
  · intro r row given
    obtain ⟨bound, -⟩ := List.getElem?_eq_some_iff.1 given
    refine ⟨_, ?_, body row (List.mem_of_getElem? given)⟩
    rw [drawn, List.getElem?_append_left (by simp; omega), List.getElem?_append_right (by simp)]
    simp [given]

/-- A row that is too short, and one that is too long. -/
theorem render_layout_ragged :
    let headers := ["é", "#"]
    let rows := [["main"], ["", "|", "beyond"]]
    (∀ header ∈ headers, '\n' ∉ header.toList) ∧
      (∀ row ∈ rows, ∀ text ∈ row, '\n' ∉ text.toList) ∧
      ∃ text, (Text.splitOn '\n' (render headers rows).toList)[4]? = some text ∧
        text[7]? = some '|' ∧ (text.drop 8).take 3 = [' ', '|', ' '] := by
  intro headers rows
  have headerPlain : ∀ header ∈ headers, '\n' ∉ header.toList := by decide
  have rowsPlain : ∀ row ∈ rows, ∀ text ∈ row, '\n' ∉ text.toList := by decide
  refine ⟨headerPlain, rowsPlain, ?_⟩
  obtain ⟨-, -, widths, number, greatest, -, -, -, body⟩ := render_layout headerPlain rowsPlain
  obtain ⟨text, here, divided⟩ := body 1 ["", "|", "beyond"] rfl
  -- The widths come from the text of the first row and from the header of the second column.
  have first : widths[0]? = some 4 := greatest 0 "é" rfl
  have second : widths[1]? = some 1 := greatest 1 "#" rfl
  obtain rfl : widths = [4, 1] := by
    refine List.ext_getElem? fun c => ?_
    match c with
    | 0 => exact first
    | 1 => exact second
    | c + 2 => simp [number, headers]
  exact ⟨text, here, divided.marked 1 (by decide), divided.filled 1 1 rfl⟩

end FileGraph.Table
