import ProgramQueue.Double

/-!
# JSON trees

A tree keeps the members of an object in the order they were written, repeated
names included, because what a repetition means is decided by whoever reads the
object.  A part of a text that is well formed and yet denotes no value, such as
a string with half a surrogate pair, is `unreadable`: it may be skipped but
never kept.
-/

namespace ProgramQueue

/-- A JSON value as it stands in a text. -/
inductive Json where
  | null
  | bool (value : Bool)
  | int (value : Int)
  | float (value : Double)
  | str (text : String)
  | arr (items : List Json)
  | obj (members : List (String × Json))
  | unreadable
deriving Repr, Inhabited

namespace Json

mutual

/-- How many arrays and objects stand inside one another, the outermost one
included. -/
def depth : Json → Nat
  | .arr items => depthOfItems items + 1
  | .obj members => depthOfMembers members + 1
  | _ => 0

def depthOfItems : List Json → Nat
  | [] => 0
  | item :: rest => max (depth item) (depthOfItems rest)

def depthOfMembers : List (String × Json) → Nat
  | [] => 0
  | (_, value) :: rest => max (depth value) (depthOfMembers rest)

end

mutual

/-- Every part denotes a value. -/
def isReadable : Json → Bool
  | .arr items => allReadable items
  | .obj members => membersReadable members
  | .unreadable => false
  | _ => true

def allReadable : List Json → Bool
  | [] => true
  | item :: rest => isReadable item && allReadable rest

def membersReadable : List (String × Json) → Bool
  | [] => true
  | (_, value) :: rest => isReadable value && membersReadable rest

end

/-- A value that may be kept with so many levels left for it. -/
def isKeepable (room : Nat) (json : Json) : Bool :=
  json.depth ≤ room && json.isReadable

def ofOption : Option Json → Json
  | none => .null
  | some value => value

def optionalStr (text : Option String) : Json :=
  ofOption (text.map .str)

end Json

end ProgramQueue
