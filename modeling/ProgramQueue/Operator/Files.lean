import ProgramQueue.Error
import ProgramQueue.Store

/-!
# Files in memory

A file is a text or a store.  A location is walked part by part from the folder
it is seen from: a blank part and a single dot stay where they are, two dots lead
to the folder above, and everything on the way has to be a folder.
-/

namespace ProgramQueue.Operator

/-- The names that lead to a file or folder, the last one first. -/
abbrev Place := List String

/-- What a file holds. -/
inductive Content where
  | text (text : String)
  | store (store : Store)

/-- Folders and files. -/
structure Files where
  /-- All folders but the outermost. -/
  folders : List Place
  /-- The files, the latest content first. -/
  files : List (Place × Content)

namespace Files

def notFolder : Error := .files "Not a directory (os error 20)"

def taken : Error := .files "File exists (os error 17)"

def missing : Error := .files "No such file or directory (os error 2)"

def isAFolder : Error := .files "Is a directory (os error 21)"

def notText : Error := .files "stream did not contain valid UTF-8"

def notStore : Error := .store "the file holds no store"

def hasFolder (files : Files) (place : Place) : Bool :=
  place.isEmpty || files.folders.contains place

/-- What the file at a place holds. -/
def content? (files : Files) (place : Place) : Option Content :=
  (files.files.find? (·.1 = place)).map Prod.snd

def has (files : Files) (place : Place) : Bool :=
  files.hasFolder place || (files.content? place).isSome

/-- The files with some content at a place. -/
def write (files : Files) (place : Place) (content : Content) : Files :=
  { files with files := (place, content) :: files.files.filter (·.1 != place) }

/-! ## Walking -/

def parts (location : String) : List String :=
  (location.toList.splitOn '/').map String.ofList

/-- The place that a location starts from, if it is seen from a folder. -/
def start (folder : Place) (location : String) : Place :=
  if location.startsWith "/" then [] else folder

/-- The place one part further on. -/
def onward (place : Place) (part : String) : Place :=
  if part = "" ∨ part = "." then place
  else if part = ".." then place.tail
  else part :: place

/-- The place that parts lead to; there may be nothing at it. -/
def walk (files : Files) (place : Place) : List String → Except Error Place
  | [] => .ok place
  | part :: rest =>
      if files.hasFolder place then files.walk (onward place part) rest
      else if files.has place then .error notFolder
      else .error missing

/-- The place of a location, seen from a folder. -/
def locate (files : Files) (folder : Place) (location : String) : Except Error Place :=
  if location = "" then .error missing
  else files.walk (start folder location) (parts location)

/-- The files with the folders that parts lead through. -/
def makeAlong (files : Files) (place : Place) : List String → Except Error Files
  | [] => .ok files
  | part :: rest =>
      let next := onward place part
      if files.hasFolder next then files.makeAlong next rest
      else if files.has next then .error (if rest.isEmpty then taken else notFolder)
      else { files with folders := next :: files.folders }.makeAlong next rest

/-- The files with a folder at a location and all the folders above it. -/
def makeFolder (files : Files) (folder : Place) (location : String) :
    Except Error Files :=
  files.makeAlong (start folder location) (parts location)

/-! ## Texts and stores -/

def readText (files : Files) (folder : Place) (location : String) :
    Except Error String := do
  let place ← files.locate folder location
  match files.content? place with
  | some (.text text) => return text
  | some (.store _) => throw notText
  | none => throw (if files.hasFolder place then isAFolder else missing)

def writeText (files : Files) (folder : Place) (location text : String) :
    Except Error Files := do
  let place ← files.locate folder location
  if files.hasFolder place then throw isAFolder
  else return files.write place (.text text)

/-- The files with a store at a location, which is new if there is no file. -/
def openStore (files : Files) (folder : Place) (location : String) :
    Except Error Files := do
  let place ← (files.locate folder location).mapError fun e => .store e.message
  if files.hasFolder place then throw notStore
  else
    match files.content? place with
    | some (.text _) => throw notStore
    | some (.store _) => return files
    | none => return files.write place (.store .empty)

/-- The store at a location; one without programs if there is none. -/
def storeAt (files : Files) (folder : Place) (location : String) : Store :=
  match files.locate folder location with
  | .error _ => .empty
  | .ok place =>
      match files.content? place with
      | some (.store store) => store
      | _ => .empty

/-- The files after a transaction of the store at a location. -/
def putStore (files : Files) (folder : Place) (location : String) (store : Store) :
    Files :=
  match files.locate folder location with
  | .error _ => files
  | .ok place => files.write place (.store store)

end Files

end ProgramQueue.Operator
