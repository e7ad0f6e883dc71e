import ProgramQueue.Json.Printer

/-!
# Where a text nests too deep

A reader that allows so many levels stops at the bracket that opens one more.
The place is given as a column: the number of bytes up to and with the bracket.
-/

namespace ProgramQueue.Json

/-- How a character changes the number of open levels, outside of strings. -/
def levelsAfter (levels : Nat) (c : Char) : Nat :=
  if c = '[' ∨ c = '{' then levels + 1
  else if c = ']' ∨ c = '}' then levels - 1
  else levels

mutual

/-- The column of the first bracket that opens more than so many levels, outside
of strings; the last column if there is none. -/
def columnOutside (room column levels : Nat) : List Char → Nat
  | [] => column
  | c :: rest =>
      let column := column + c.utf8Size
      if c = '"' then columnInside room column levels rest
      else
        let levels := levelsAfter levels c
        if room < levels then column else columnOutside room column levels rest

/-- The same inside a string, which its first bare quote ends. -/
def columnInside (room column levels : Nat) : List Char → Nat
  | [] => column
  | '\\' :: c :: rest => columnInside room (column + 1 + c.utf8Size) levels rest
  | c :: rest =>
      let column := column + c.utf8Size
      if c = '"' then columnOutside room column levels rest
      else columnInside room column levels rest

end

/-- The column at which the text of a value without blanks opens more than so
many levels. -/
def columnBeyond (room : Nat) (json : Json) : Nat :=
  columnOutside room 0 0 json.compactChars

end ProgramQueue.Json
