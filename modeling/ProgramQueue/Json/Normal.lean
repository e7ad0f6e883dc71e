import ProgramQueue.Json

/-!
# Normal forms of free-form values

A value that is kept without being understood is kept in normal form: the
members of each object sorted by name, and of members with one name only the
last.
-/

namespace ProgramQueue.Json

/-- Puts a member in its place by name; one of the same name is replaced. -/
def placeMember (name : String) (value : Json) :
    List (String × Json) → List (String × Json)
  | [] => [(name, value)]
  | (other, kept) :: rest =>
      if name < other then (name, value) :: (other, kept) :: rest
      else if name = other then (name, value) :: rest
      else (other, kept) :: placeMember name value rest

mutual

def normal : Json → Json
  | .arr items => .arr (normalItems items)
  | .obj members => .obj (normalMembers members)
  | other => other

def normalItems : List Json → List Json
  | [] => []
  | item :: rest => normal item :: normalItems rest

/-- The members with one name each, the last one written, in order of names. -/
def normalMembers : List (String × Json) → List (String × Json)
  | [] => []
  | (name, value) :: rest =>
      let later := normalMembers rest
      if later.any (·.1 = name) then later
      else placeMember name (normal value) later

end

end ProgramQueue.Json
