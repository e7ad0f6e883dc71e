import ProgramQueue.Decimal.Layout
import ProgramQueue.Json
import ProgramQueue.Table
import ProgramQueue.Yaml.Scalar

/-!
# Sections of a configuration

A section is a list of settings, each with a value of its own for when it is not
written.  A section is read from a map, in which unknown keys are passed over and
a known one may stand once; it is written with all its settings in their order.
-/

namespace ProgramQueue.Config

/-- One setting of a section. -/
structure Setting (α : Type) where
  name : String
  /-- The value if the setting is not written. -/
  default : α
  read : Yaml → Option α
  toYaml : α → Yaml
  toJson : α → Json

namespace Setting

def text (name default : String) : Setting String where
  name := name
  default := default
  read := Yaml.text?
  toYaml := Yaml.ofText
  toJson := .str

def optionalText (name : String) : Setting (Option String) where
  name := name
  default := none
  read node := if node.isNull then some none else node.text?.map some
  toYaml value := (value.map Yaml.ofText).getD (.scalar true "null")
  toJson := Json.optionalStr

/-- A setting that is a number from zero up to a bound. -/
def natBelow (bound : Nat) (name : String) (default : Nat) : Setting Nat where
  name := name
  default := default
  read := Yaml.nat? bound
  toYaml value := .scalar true (toString value)
  toJson value := .int value

/-- How doubles are written: with a fraction up to sixteen digits, and with no
plus sign in front of an exponent. -/
def numberLayout : Decimal.Layout where
  leastPositional := -5
  greatestPositional := 15
  plusSign := false
  notANumber := ".nan"
  infinite := ".inf"
  minusInfinite := "-.inf"

def double (name : String) (default : Double) : Setting Double where
  name := name
  default := default
  read := Yaml.double?
  toYaml value := .scalar true (String.ofList (numberLayout.text value))
  toJson := .float

def texts (name : String) : Setting (List String) where
  name := name
  default := []
  read node := node.items?.bind (·.mapM Yaml.text?)
  toYaml values := .list (values.map Yaml.ofText)
  toJson values := .arr (values.map .str)

/-- A setting that is a table of texts, in which the last of several entries
with one key counts. -/
def table (name : String) : Setting (Table String) where
  name := name
  default := .empty
  read node := do
    let entries ← node.entries?
    let pairs ← entries.mapM fun (key, value) => do
      return (← key.text?, ← value.text?)
    return .ofList pairs
  toYaml table := .map (table.entries.map fun (key, value) => (.ofText key, .ofText value))
  toJson table := .obj (table.entries.map fun (key, value) => (key, .str value))

end Setting

/-- The settings of a section, with the type of all their values together. -/
inductive Section : Type → Type 1 where
  | nil : Section Unit
  | cons {α β : Type} (head : Setting α) (tail : Section β) : Section (α × β)

namespace Section

def defaults : {α : Type} → Section α → α
  | _, .nil => ()
  | _, .cons head tail => (head.default, tail.defaults)

/-- The value of a setting among entries with their keys as texts. -/
def readSetting {α : Type} (setting : Setting α) (given : List (String × Yaml)) :
    Option α :=
  match given.filter (·.1 = setting.name) with
  | [] => some setting.default
  | [(_, node)] => setting.read node
  | _ => none

/-- The values among entries. -/
def readEntries (given : List (String × Yaml)) : {α : Type} → Section α → Option α
  | _, .nil => some ()
  | _, .cons head tail => do
      let value ← readSetting head given
      let values ← tail.readEntries given
      return (value, values)

def read {α : Type} (part : Section α) (node : Yaml) : Option α := do
  let entries ← node.entries?
  let given ← entries.mapM fun (key, value) => do return (← key.text?, value)
  part.readEntries given

/-- The entries that are written for the values. -/
def yamlEntries : {α : Type} → Section α → α → List (Yaml × Yaml)
  | _, .nil, () => []
  | _, .cons head tail, (value, values) =>
      (.ofText head.name, head.toYaml value) :: tail.yamlEntries values

def jsonMembers : {α : Type} → Section α → α → List (String × Json)
  | _, .nil, () => []
  | _, .cons head tail, (value, values) =>
      (head.name, head.toJson value) :: tail.jsonMembers values

def setting {α : Type} (name : String) (part : Section α) : Setting α where
  name := name
  default := part.defaults
  read := part.read
  toYaml values := .map (part.yamlEntries values)
  toJson values := .obj (part.jsonMembers values)

end Section

end ProgramQueue.Config
