/-!
# YAML trees

A tree of scalars, lists and maps.  Of a scalar it is kept whether it stands
without quotes, because only then can it be read as a number, a truth value or
the absence of a value.  A map keeps its entries in the order they were written,
repeated keys included.
-/

namespace ProgramQueue

/-- A node of a YAML document. -/
inductive Yaml where
  | scalar (plain : Bool) (text : String)
  | list (items : List Yaml)
  | map (entries : List (Yaml × Yaml))
deriving Repr, Inhabited

namespace Yaml

/-- The node that stands where nothing is written. -/
def blank : Yaml := scalar true ""

/-- A break between two lines. -/
def isBreak (c : Char) : Bool := c = '\n' || c.toNat = 0x2028 || c.toNat = 0x2029

/-- A blank within a line. -/
def isBlank (c : Char) : Bool := c = ' ' || c = '\t'

/-- Nothing of a word follows: the end, a blank or a break. -/
def endsWord : List Char → Bool
  | [] => true
  | c :: _ => isBlank c || isBreak c

/-- The mark of a single quote. -/
def apostrophe : Char := Char.ofNat 0x27

end Yaml

end ProgramQueue
