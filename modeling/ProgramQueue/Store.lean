import ProgramQueue.Json.Depth
import ProgramQueue.Store.Tables
import ProgramQueue.Store.Transcription
import ProgramQueue.Wire.Program

/-!
# The store of programs

A store keeps each program with its state under the program's id, remembers which
runner holds a program and since when, and never forgets an id that was removed.
Every operation is one transaction.

A record is read back from text, which may nest only so deep; nothing is checked
when it is written.
-/

namespace ProgramQueue

namespace Item

/-- The record nests no deeper than a text may when it is read. -/
def isReadable (item : Item) : Bool := item.toJson.depth ≤ Wire.Level.whole.room

/-- Why a record that nests too deep cannot be read. -/
def depthError (item : Item) : Error :=
  .tooDeep (Json.columnBeyond Wire.Level.whole.room item.toJson)

/-- The record as it is read back. -/
def reread (item : Item) : Except Error Item :=
  if item.isReadable then .ok item.transcribed else .error item.depthError

end Item

namespace Store

/-! ## Programs -/

/-- Stores a new program.  The id of a program that is stored or was removed is
refused. -/
def inserting (program : Program) : Transaction Item := do
  access .beginWrite
  if ← access (.isRetired program.id) then throw (.programExists program.id)
  else
    match ← access (.item program.id) with
    | some _ => throw (.programExists program.id)
    | none =>
        access (.putItem program.id (.fresh program))
        access .commit
        return .fresh program

def getting (id : String) : Transaction (Option Item) := do
  match ← access (.item id) with
  | none => return none
  | some item => return some (← item.reread)

/-- Reads all programs in the order of their ids, if all of them can be read. -/
def listing : Transaction (List (String × Item)) := do
  let entries ← access .items
  entries.mapM (m := Except Error) fun (id, item) => return (id, ← item.reread)

/-- Changes the state of a stored program and answers with the new state. -/
def updating (id : String) (change : State → State) : Transaction State := do
  access .beginWrite
  match ← access (.item id) with
  | none => throw (.programNotFound id)
  | some item =>
      let item ← item.reread
      access (.putItem id { item with state := change item.state })
      access .commit
      return change item.state

/-- Puts a state in place of the one that is stored for its program. -/
def saving (state : State) : Transaction Unit := do
  let _ ← updating state.programId fun _ => state

/-- Deletes a program with its claim and retires its id.  The record is taken out
before it is read. -/
def removing (id : String) : Transaction Item := do
  access .beginWrite
  match ← access (.takeItem id) with
  | none => throw (.programNotFound id)
  | some item =>
      let item ← item.reread
      access (.dropClaim id)
      access (.retire id)
      access .commit
      return item

/-! ## Claims -/

/-- The most seconds that a span of time may have. -/
def longestSpan : Nat := 9223372036854775

/-- A span of so many seconds in milliseconds. -/
def span (seconds : Nat) : Except Error Int :=
  if seconds ≤ longestSpan then .ok (seconds * 1000)
  else .error (.store "duration out of range")

/-- Marks a program as held, unless someone else has held it for less than the
given number of seconds.  Times are unbounded integers here; an end of a claim that
lies beyond the dates of a calendar, some 260,000 years away, is not refused. -/
def claiming (id owner : String) (now : Int) (ttl : Nat) : Transaction Bool := do
  let ttl ← span ttl
  access .beginWrite
  let heldByOther := (← access (.claim id)).any fun claim =>
    claim.owner != owner && now < claim.claimedAt + ttl
  if heldByOther then return false
  access (.putClaim id ⟨owner, now⟩)
  access .commit
  return true

/-- Drops the mark of a program if this owner holds it. -/
def releasing (id owner : String) : Transaction Unit := do
  access .beginWrite
  if (← access (.claim id)).any (·.owner = owner) then access (.dropClaim id)
  access .commit

/-- Drops the marks of all these programs. -/
def droppingEach : List String → Transaction Unit
  | [] => return
  | id :: rest => do
      access (.dropClaim id)
      droppingEach rest

/-- Drops every claim that is older than the given number of seconds and answers
how many there were.  An age that reaches back beyond the dates of a calendar is not
refused either. -/
def recovering (now : Int) (maxAge : Nat) : Transaction Nat := do
  let maxAge ← span maxAge
  access .beginWrite
  let stale := (← access .claims).filter fun (_, claim) => claim.claimedAt < now - maxAge
  droppingEach (stale.map Prod.fst)
  access .commit
  return stale.length

/-! ## The operations on a store -/

def insert (program : Program) : Store → Except Error Item × Store :=
  perform (inserting program)

def get (id : String) (store : Store) : Except Error (Option Item) :=
  (store.perform (getting id)).1

def list (store : Store) : Except Error (List (String × Item)) :=
  (store.perform listing).1

def update (id : String) (change : State → State) : Store → Except Error State × Store :=
  perform (updating id change)

def save (state : State) : Store → Except Error Unit × Store := perform (saving state)

def remove (id : String) : Store → Except Error Item × Store := perform (removing id)

def tryClaim (id owner : String) (now : Int) (ttl : Nat) :
    Store → Except Error Bool × Store :=
  perform (claiming id owner now ttl)

def release (id owner : String) (store : Store) : Store :=
  (store.perform (releasing id owner)).2

/-- Who holds a program. -/
def claim? (id : String) (store : Store) : Option Claim := store.claims.find? id

def recoverStale (now : Int) (maxAge : Nat) : Store → Except Error Nat × Store :=
  perform (recovering now maxAge)

end Store

end ProgramQueue
