/-!
# Tables in columns

A column is as wide as its widest cell has bytes, and a cell is filled up with
blanks to as many characters.  Where all cells are ASCII the columns line up.
-/

namespace ProgramQueue.Operator.Columns

/-- The cell filled up to so many characters. -/
def pad (width : Nat) (cell : String) : String :=
  cell ++ String.ofList (List.replicate (width - cell.length) ' ')

/-- The widths that suit one more row. -/
def widen : List Nat → List String → List Nat
  | width :: widths, cell :: cells => max width cell.utf8ByteSize :: widen widths cells
  | widths, _ => widths

def widths (headers : List String) (rows : List (List String)) : List Nat :=
  rows.foldl widen (headers.map String.utf8ByteSize)

def line (widths : List Nat) (cells : List String) : String :=
  "  ".intercalate (List.zipWith pad widths cells)

def rule (widths : List Nat) : String :=
  "  ".intercalate (widths.map fun width => String.ofList (List.replicate width '-'))

def lines (headers : List String) (rows : List (List String)) : List String :=
  let widths := widths headers rows
  line widths headers :: rule widths :: rows.map (line widths)

end ProgramQueue.Operator.Columns
