import SimpleLR.Table.Basic
import SimpleLR.Text.Space
/-!
# The text of a parse table

A table is shown as lines of cells: a header of `State` and the columns, a rule of dashes, and
a line per state with its number and its cells. Every column is as wide as its widest entry,
cells are padded on the right with spaces to that width and parted by ` | `, and each line
loses its trailing blanks. The rule has a run of dashes per column, parted by `-+-`.
-/

namespace SimpleLR

/-- A text padded on the right with spaces to `width` characters. -/
def padRight (width : Nat) (s : String) : String :=
  s ++ String.ofList (List.replicate (width - s.length) ' ')

/-- A line of cells padded to their widths, without trailing blanks. -/
def layoutLine (widths : List Nat) (cells : List String) : String :=
  String.ofList (Text.trimRight (" | ".intercalate (List.zipWith padRight widths cells)).toList)

/-- The width of each column: the longest of its entries. -/
def columnWidths (lines : List (List String)) (n : Nat) : List Nat :=
  (List.range n).map fun k => (lines.map fun l => (l.getD k "").length).foldl max 0

/-- The text of a table. -/
def Table.render (t : Table) : String :=
  let header := "State" :: t.columns
  let body := t.rows.zipIdx.map fun (r, i) => toString i :: r.map Cell.text
  let widths := columnWidths (header :: body) header.length
  "\n".intercalate <|
    layoutLine widths header ::
    "-+-".intercalate (widths.map fun w => String.ofList (List.replicate w '-')) ::
    body.map (layoutLine widths)

end SimpleLR
