import ProgramQueue.Wire.Record

/-!
# Tagged values on the wire

A value of one of several kinds carries the word for its kind in the member
`type`, which may stand anywhere among the others, or as the first item of an
array.  It is taken in whole before its kind is known, so all of it has to be
readable and to fit the room that is left.  Inside a value that has been taken
in, the kind may also be given by its position among the words.
-/

namespace ProgramQueue.Wire

/-- The name of the member that holds the tag. -/
def tagName : String := "type"

/-- What a tagged value holds besides its tag. -/
inductive Content where
  | named (members : List (String × Json))
  | listed (items : List Json)

/-- The word that a tag stands for. -/
def tagWord? (words : List String) (kept : Bool) : Json → Option String
  | .str word => if word ∈ words then some word else none
  | .int (.ofNat n) => if kept then words[n]? else none
  | _ => none

/-- Splits a tagged value into its word and the rest. -/
def untag (words : List String) (level : Level) (json : Json) :
    Option (String × Content) :=
  if level.kept || json.isKeepable level.room then
    match json with
    | .obj members =>
        match members.filter (·.1 = tagName) with
        | [(_, tag)] => do
            let word ← tagWord? words level.kept tag
            return (word, .named (members.filter (·.1 ≠ tagName)))
        | _ => none
    | .arr (tag :: items) => do
        let word ← tagWord? words level.kept tag
        return (word, .listed items)
    | _ => none
  else none

/-- Inside a tagged value that stands at this level. -/
def Level.within (level : Level) : Level := ⟨level.room - 1, true⟩

/-- The values of a record in what a tagged value holds. -/
def Record.readContent {α : Type} (record : Record α) (level : Level) :
    Content → Option α
  | .named members => record.readNamed level members
  | .listed items => record.readListed level items

/-- A tagged value that holds nothing more; members beside the tag are passed
over. -/
def Content.isBare : Content → Bool
  | .named _ => true
  | .listed items => items.isEmpty

/-- The object that is written for a word and its members. -/
def tagged (word : String) (members : List (String × Json)) : Json :=
  .obj ((tagName, .str word) :: members)

end ProgramQueue.Wire
