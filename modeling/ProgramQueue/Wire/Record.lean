import ProgramQueue.Wire.Scalar

/-!
# Records on the wire

A record is a list of fields.  It is written as an object with its members in
the order of the fields.  It is read from an object, where members may stand in
any order and unknown ones are passed over, or from an array that gives the
values in the order of the fields.
-/

namespace ProgramQueue.Wire

/-- One member of a record. -/
structure Field (α : Type) where
  name : String
  read : Reader α
  /-- The value if no member has the name. -/
  absent : Option α
  /-- The value if the array ends before it. -/
  unlisted : Option α
  /-- The member's value, if the member is written at all. -/
  write : α → Option Json

namespace Field

/-- A member that must be there. -/
def required {α : Type} (name : String) (read : Reader α) (write : α → Json) :
    Field α where
  name := name
  read := read
  absent := none
  unlisted := none
  write value := some (write value)

/-- A member that may be left out or null, and is left out when there is no
value. -/
def optional {α : Type} (name : String) (read : Reader α) (write : α → Json) :
    Field (Option α) where
  name := name
  read := read.nullable
  absent := some none
  unlisted := some none
  write value := value.map write

/-- A member that is written as null when there is no value. -/
def nullable {α : Type} (name : String) (read : Reader α) (write : α → Json) :
    Field (Option α) where
  name := name
  read := read.nullable
  absent := some none
  unlisted := none
  write value := some (Json.ofOption (value.map write))

/-- A member with a value of its own for when it is left out. -/
def defaulted {α : Type} (name : String) (default : α) (read : Reader α)
    (write : α → Json) : Field α where
  name := name
  read := read
  absent := some default
  unlisted := some default
  write value := some (write value)

/-- A list that may be left out, and is left out when it is empty. -/
def sparse {α : Type} (name : String) (read : Reader (List α))
    (write : List α → Json) : Field (List α) where
  name := name
  read := read
  absent := some []
  unlisted := some []
  write value := if value.isEmpty then none else some (write value)

/-- The members that have the field's name. -/
def occurrences {α : Type} (field : Field α) (members : List (String × Json)) :
    List (String × Json) :=
  members.filter (·.1 = field.name)

/-- The field among the members of an object; a second member of its name is one
too many. -/
def readNamed {α : Type} (field : Field α) (level : Level)
    (members : List (String × Json)) : Option α :=
  match field.occurrences members with
  | [] => field.absent
  | [(_, value)] => field.read level value
  | _ => none

end Field

/-- The fields of a record, with the type of all their values together. -/
inductive Record : Type → Type 1 where
  | nil : Record Unit
  | cons {α β : Type} (head : Field α) (tail : Record β) : Record (α × β)

namespace Record

def names : {α : Type} → Record α → List String
  | _, .nil => []
  | _, .cons head tail => head.name :: tail.names

/-- The members that are written for the values. -/
def members : {α : Type} → Record α → α → List (String × Json)
  | _, .nil, () => []
  | _, .cons head tail, (value, values) =>
      match head.write value with
      | some json => (head.name, json) :: tail.members values
      | none => tail.members values

def write {α : Type} (record : Record α) (values : α) : Json :=
  .obj (record.members values)

/-- The values among the members of an object. -/
def readNamed (level : Level) (given : List (String × Json)) :
    {α : Type} → Record α → Option α
  | _, .nil => some ()
  | _, .cons head tail => do
      let value ← head.readNamed level given
      let values ← tail.readNamed level given
      return (value, values)

/-- The values in the order of the fields, and no more. -/
def readListed (level : Level) : {α : Type} → Record α → List Json → Option α
  | _, .nil, [] => some ()
  | _, .nil, _ :: _ => none
  | _, .cons head tail, [] => do
      let value ← head.unlisted
      let values ← tail.readListed level []
      return (value, values)
  | _, .cons head tail, item :: rest => do
      let value ← head.read level item
      let values ← tail.readListed level rest
      return (value, values)

/-- The values of a record at a level. -/
def read {α : Type} (record : Record α) : Reader α
  | level, .obj given =>
      if level.room = 0 then none else record.readNamed level.inner given
  | level, .arr items =>
      if level.room = 0 then none else record.readListed level.inner items
  | _, _ => none

end Record

end ProgramQueue.Wire
