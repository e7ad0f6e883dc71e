/-!
# Locations of files

A location is the text of a path with slashes between its parts.  One that does
not start with a slash is taken from a folder.
-/

namespace ProgramQueue.Location

/-- A location as seen from a folder. -/
def join (folder location : String) : String :=
  if location.startsWith "/" then location
  else if folder.isEmpty || folder.endsWith "/" then folder ++ location
  else folder ++ "/" ++ location

/-- The characters of a location without its last part, if there are any
before it. -/
def aboveChars? (location : List Char) : Option (List Char) :=
  let before := (location.reverse.dropWhile (· = '/')).dropWhile (· != '/')
  let above := (before.dropWhile (· = '/')).reverse
  if before.isEmpty then none
  else if above.isEmpty then some ['/']
  else some above

/-- A location of so many characters at most, and the ones above it. -/
def upwardFrom : Nat → List Char → List (List Char)
  | 0, _ => []
  | fuel + 1, location =>
      location ::
        match aboveChars? location with
        | none => []
        | some above => if above = location then [] else upwardFrom fuel above

/-- A folder and all the folders above it, the nearest first. -/
def upward (folder : String) : List String :=
  (upwardFrom (folder.length + 1) folder.toList).map String.ofList

end ProgramQueue.Location
