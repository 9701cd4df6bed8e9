/-! # Tables of text

A grid of cells drawn with `+`, `-` and `|`:

* `Table.render`: headers, then rows; each column as wide as its longest text.
* `Table.columnWidths`: the widths, counted in characters.

A row that is too short is filled with empty cells, and what stands beyond the last header is
left out.
-/

namespace FileGraph.Table

/-- The text of a row in column `i`: empty where the row is too short. -/
def cell (row : List String) (i : Nat) : String :=
  row[i]?.getD ""

def columnWidth (rows : List (List String)) (header : String) (i : Nat) : Nat :=
  rows.foldl (fun width row => max width (cell row i).length) header.length

/-- The width of each column: the length of its longest text, the header included. -/
def columnWidths (headers : List String) (rows : List (List String)) : List Nat :=
  headers.mapIdx fun i header => columnWidth rows header i

def repeated (count : Nat) (c : Char) : String :=
  String.ofList (List.replicate count c)

/-- A rule line: a `+` at each border and dashes between. -/
def rule (widths : List Nat) : String :=
  widths.foldl (fun line width => line ++ repeated (width + 2) '-' ++ "+") "+"

/-- A line of cells, each filled up with spaces to the width of its column. -/
def line (cells : List (String × Nat)) : String :=
  cells.foldl
    (fun line (text, width) => line ++ " " ++ text ++ repeated (width - text.length) ' ' ++ " |")
    "|"

/-- The cells of a row, one for each width. -/
def rowCells (widths : List Nat) (row : List String) : List (String × Nat) :=
  widths.mapIdx fun i width => (cell row i, width)

def lines (headers : List String) (rows : List (List String)) : List String :=
  let widths := columnWidths headers rows
  [rule widths, line (headers.zip widths), rule widths] ++
    rows.map (fun row => line (rowCells widths row)) ++ [rule widths]

/-- The text of a table: its lines, separated by line feeds. -/
def render (headers : List String) (rows : List (List String)) : String :=
  "\n".intercalate (lines headers rows)

end FileGraph.Table
