import QueryPlanner.Text.Width

/-!
# Tables of text

A table has a row of titles and rows of cells. Every column is as wide as its widest line, cells are
aligned left with a blank on either side, and a rule of dashes stands above the titles, below
them and at the end. A cell with several lines takes as many lines of the table.
-/

namespace QueryPlanner.Text

/-- The lines of a cell. A line feed ends a line, so none follows the last one, and a carriage
return right before it belongs to the line's end. -/
def cellLines (cell : String) : List String :=
  let pieces := cell.splitOn "\n"
  let ended := pieces.dropLast.map fun piece =>
    if piece.endsWith "\r" then String.ofList piece.toList.dropLast else piece
  ended ++ pieces.getLast?.toList.filter (· ≠ "")

structure Table where
  titles : List String
  rows : List (List String)

namespace Table

/-- Columns that a cell takes, those of its widest line. -/
def cellWidth (cell : String) : Nat :=
  (cellLines cell).foldl (fun width line => max width (lineWidth line)) 0

def widths (t : Table) : List Nat :=
  t.titles.mapIdx fun column _ =>
    (t.titles :: t.rows).foldl (fun width row => max width (cellWidth (row[column]?.getD ""))) 0

/-- The rule between two parts of a table. -/
def rule (widths : List Nat) : String :=
  "+" ++ String.join (widths.map fun w => String.ofList (List.replicate (w + 2) '-') ++ "+") ++ "\n"

/-- One row, as many lines as its tallest cell. -/
def row (widths : List Nat) (cells : List String) : String :=
  let cells := cells.map cellLines
  let height := cells.foldl (fun h lines => max h lines.length) 1
  String.join <| (List.range height).map fun i =>
    "|" ++ String.join (widths.mapIdx fun column w =>
      let line := (cells[column]?.getD [])[i]?.getD ""
      " " ++ line ++ String.ofList (List.replicate (w - lineWidth line) ' ') ++ " |") ++ "\n"

def text (t : Table) : String :=
  let w := t.widths
  rule w ++ row w t.titles ++ rule w ++ String.join (t.rows.map (row w)) ++ rule w

end Table

end QueryPlanner.Text
