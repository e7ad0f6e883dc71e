import ProgramQueue.Json
import ProgramQueue.Hex
import ProgramQueue.Decimal.Layout

/-!
# Writing JSON text

Two forms: one without any blanks, and one with each member and item on a line
of its own.  Strings escape the quote, the backslash and the control characters,
and nothing else.
-/

namespace ProgramQueue.Json

/-- Doubles in JSON: positional from `1e-5` up to `1e16`, and a sign on every
power. -/
def numberLayout : Decimal.Layout where
  leastPositional := -5
  greatestPositional := 15
  plusSign := true
  notANumber := "null"
  infinite := "null"
  minusInfinite := "null"

def escape (c : Char) : List Char :=
  if c = '"' then ['\\', '"']
  else if c = '\\' then ['\\', '\\']
  else if c = '\x08' then ['\\', 'b']
  else if c = '\t' then ['\\', 't']
  else if c = '\n' then ['\\', 'n']
  else if c = '\x0c' then ['\\', 'f']
  else if c = '\r' then ['\\', 'r']
  else if c.toNat < 0x20 then
    ['\\', 'u', '0', '0', Hex.digit (c.toNat / 16), Hex.digit (c.toNat % 16)]
  else [c]

def quoted (text : String) : List Char :=
  '"' :: (text.toList.flatMap escape ++ ['"'])

def integerChars : Int → List Char
  | .ofNat n => Nat.toDigits 10 n
  | .negSucc n => '-' :: Nat.toDigits 10 (n + 1)

/-! ## Without blanks -/

mutual

/-- The text of a value without blanks. -/
def compactChars : Json → List Char
  | .null => ['n', 'u', 'l', 'l']
  | .bool true => ['t', 'r', 'u', 'e']
  | .bool false => ['f', 'a', 'l', 's', 'e']
  | .int n => integerChars n
  | .float x => numberLayout.text x
  | .str s => quoted s
  | .arr [] => ['[', ']']
  | .arr (item :: rest) => '[' :: (compactChars item ++ compactItems rest)
  | .obj [] => ['{', '}']
  | .obj ((name, value) :: rest) =>
      '{' :: (quoted name ++ ':' :: (compactChars value ++ compactMembers rest))
  | .unreadable => ['n', 'u', 'l', 'l']

def compactItems : List Json → List Char
  | [] => [']']
  | item :: rest => ',' :: (compactChars item ++ compactItems rest)

def compactMembers : List (String × Json) → List Char
  | [] => ['}']
  | (name, value) :: rest =>
      ',' :: (quoted name ++ ':' :: (compactChars value ++ compactMembers rest))

end

def compact (json : Json) : String := String.ofList json.compactChars

/-! ## With one line for each part -/

/-- The start of a line at a depth, two blanks for each level. -/
def newLine (level : Nat) : List Char := '\n' :: List.replicate (2 * level) ' '

mutual

/-- The text of a value with a line for each part, inside so many levels. -/
def prettyChars (level : Nat) : Json → List Char
  | .arr [] => ['[', ']']
  | .arr (item :: rest) =>
      '[' :: (newLine (level + 1) ++ prettyChars (level + 1) item ++
        prettyItems level rest)
  | .obj [] => ['{', '}']
  | .obj ((name, value) :: rest) =>
      '{' :: (newLine (level + 1) ++ quoted name ++ ':' :: ' ' ::
        (prettyChars (level + 1) value ++ prettyMembers level rest))
  | scalar => compactChars scalar

def prettyItems (level : Nat) : List Json → List Char
  | [] => newLine level ++ [']']
  | item :: rest =>
      ',' :: (newLine (level + 1) ++ prettyChars (level + 1) item ++
        prettyItems level rest)

def prettyMembers (level : Nat) : List (String × Json) → List Char
  | [] => newLine level ++ ['}']
  | (name, value) :: rest =>
      ',' :: (newLine (level + 1) ++ quoted name ++ ':' :: ' ' ::
        (prettyChars (level + 1) value ++ prettyMembers level rest))

end

def pretty (json : Json) : String := String.ofList (json.prettyChars 0)

end ProgramQueue.Json
