import ProgramQueue.Json.Normal
import ProgramQueue.Hex

/-!
# Scalars on the wire

How single values, lists of them and free-form values are written into a JSON
tree and read out of it.  A reader is told the level it reads at, because a
value may only nest so deep and because a few spellings are allowed only inside
a value that has been taken in whole.
-/

namespace ProgramQueue.Wire

/-- Where in a text a value is read. -/
structure Level where
  /-- How many more arrays and objects may open inside one another. -/
  room : Nat
  /-- Whether a tagged value around this one has been taken in whole. -/
  kept : Bool
deriving DecidableEq, Repr

/-- A whole text: a hundred and twenty-seven levels, nothing taken in yet. -/
def Level.whole : Level := ⟨127, false⟩

/-- Inside an array or object that stands at this level. -/
def Level.inner (level : Level) : Level := { level with room := level.room - 1 }

/-- A way to find a value in a JSON tree. -/
abbrev Reader (α : Type) := Level → Json → Option α

namespace Reader

def str : Reader String
  | _, .str text => some text
  | _, _ => none

def bool : Reader Bool
  | _, .bool value => some value
  | _, _ => none

/-- An integer from zero up to a bound. -/
def natBelow (bound : Nat) : Reader Nat
  | _, .int (.ofNat n) => if n < bound then some n else none
  | _, _ => none

def uint64 : Reader UInt64 := fun level json =>
  (natBelow (Nat.pow 2 64) level json).map UInt64.ofNat

def uint32 : Reader UInt32 := fun level json =>
  (natBelow (Nat.pow 2 32) level json).map UInt32.ofNat

def int64 : Reader Int64
  | _, .int n =>
      if Int64.minValue.toInt ≤ n ∧ n ≤ Int64.maxValue.toInt then some (Int64.ofInt n)
      else none
  | _, _ => none

/-- A double, which may also be written as an integer. -/
def double : Reader Double
  | _, .float x => some x
  | _, .int n => some (.ofInt n)
  | _, _ => none

def bytes : Reader (List UInt8)
  | _, .str text => Hex.decode? text
  | _, _ => none

/-- One of a few words.  A word may also be the only member of an object, which
then holds null, or an empty object inside a value that has been taken in. -/
def word {α : Type} (ofWord? : String → Option α) : Reader α
  | _, .str text => ofWord? text
  | level, .obj [(text, .null)] => if level.room = 0 then none else ofWord? text
  | level, .obj [(text, .obj [])] => if level.kept then ofWord? text else none
  | _, _ => none

def list {α : Type} (item : Reader α) : Reader (List α)
  | level, .arr items =>
      if level.room = 0 then none else items.mapM (item level.inner)
  | _, _ => none

/-- A value or null. -/
def nullable {α : Type} (value : Reader α) : Reader (Option α)
  | _, .null => some none
  | level, json => (value level json).map some

/-- A value that is kept as it is, to be looked at later. -/
def raw : Reader Json := fun _ json => some json

/-- A value that is kept without being understood. -/
def freeForm : Reader Json := fun level json =>
  if json.isKeepable level.room then some json.normal else none

end Reader

/-! ## Writing -/

def nat (n : Nat) : Json := .int (.ofNat n)

def bytes (data : List UInt8) : Json := .str (Hex.encode data)

def strs (texts : List String) : Json := .arr (texts.map .str)

end ProgramQueue.Wire
