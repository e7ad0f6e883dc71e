import ProgramQueue.Json
import ProgramQueue.Hex
import ProgramQueue.Decimal.Scaled

/-!
# Reading JSON text

The strict grammar: four blanks, no comments, no leading zeros, no raw control
characters.  Each function takes the text that is left and returns a part of the
tree with what follows it; `none` means that the text is malformed there.  The
recursion is on a budget of calls, for which twice the length of the text is
always enough.
-/

namespace ProgramQueue.Json

/-- The characters that may stand between two parts. -/
def isBlank (c : Char) : Bool :=
  c = ' ' || c = '\t' || c = '\n' || c = '\r'

def skipBlanks (text : List Char) : List Char := text.dropWhile isBlank

/-! ## Strings -/

def hexUnit? (a b c d : Char) : Option Nat := do
  let a ← Hex.value? a
  let b ← Hex.value? b
  let c ← Hex.value? c
  let d ← Hex.value? d
  return ((a * 16 + b) * 16 + c) * 16 + d

/-- What a single letter after a backslash stands for. -/
def shortEscape? : Char → Option Char
  | '"' => some '"'
  | '\\' => some '\\'
  | '/' => some '/'
  | 'b' => some '\x08'
  | 'f' => some '\x0c'
  | 'n' => some '\n'
  | 'r' => some '\r'
  | 't' => some '\t'
  | _ => none

/-- The units of a string up to its closing quote: code points, in which an
escape may also leave half a surrogate pair. -/
def units : List Char → Option (List Nat × List Char)
  | '"' :: rest => some ([], rest)
  | '\\' :: 'u' :: a :: b :: c :: d :: rest => do
      let unit ← hexUnit? a b c d
      let (more, rest) ← units rest
      return (unit :: more, rest)
  | '\\' :: letter :: rest => do
      let c ← shortEscape? letter
      let (more, rest) ← units rest
      return (c.toNat :: more, rest)
  | c :: rest =>
      if c.toNat < 0x20 ∨ c = '\\' then none
      else do
        let (more, rest) ← units rest
        return (c.toNat :: more, rest)
  | [] => none

def isHighSurrogate (unit : Nat) : Bool := 0xD800 ≤ unit && unit < 0xDC00

def isLowSurrogate (unit : Nat) : Bool := 0xDC00 ≤ unit && unit < 0xE000

/-- The characters that units stand for; none if half a pair stands alone. -/
def charsOfUnits : List Nat → Option (List Char)
  | [] => some []
  | high :: low :: rest =>
      if isHighSurrogate high then
        if isLowSurrogate low then do
          let more ← charsOfUnits rest
          return Char.ofNat (0x10000 + (high - 0xD800) * 0x400 + (low - 0xDC00)) :: more
        else none
      else if isLowSurrogate high then none
      else do
        let more ← charsOfUnits (low :: rest)
        return Char.ofNat high :: more
  | [unit] =>
      if isHighSurrogate unit || isLowSurrogate unit then none
      else some [Char.ofNat unit]

/-- The text of a string whose opening quote has been read, if it denotes one. -/
def stringBody (text : List Char) : Option (Option String × List Char) := do
  let (parts, rest) ← units text
  return ((charsOfUnits parts).map String.ofList, rest)

/-! ## Numbers -/

def isDigit (c : Char) : Bool := '0' ≤ c && c ≤ '9'

/-- The digits at the front of a text, and the rest. -/
def spanDigits (text : List Char) : List Char × List Char :=
  (text.takeWhile isDigit, text.dropWhile isDigit)

/-- The digits of a whole part: a zero alone, or digits that start with none. -/
def wholePart? (text : List Char) : Option (List Char × List Char) :=
  match spanDigits text with
  | ([], _) => none
  | ('0' :: _ :: _, _) => none
  | found => some found

/-- The digits after a point, if there is one. -/
def fractionPart? : List Char → Option (Option (List Char) × List Char)
  | '.' :: rest =>
      match spanDigits rest with
      | ([], _) => none
      | (digits, rest) => some (some digits, rest)
  | text => some (none, text)

def natOfDigits (digits : List Char) : Nat :=
  digits.foldl (fun total c => total * 10 + Decimal.digitValue c) 0

/-- The digits of a power of ten with its sign. -/
def signedPower? (negative : Bool) (text : List Char) :
    Option (Option Int × List Char) :=
  match spanDigits text with
  | ([], _) => none
  | (digits, rest) =>
      let size := natOfDigits digits
      some (some (if negative then -size else size), rest)

/-- The power of ten, if there is one. -/
def powerPart? : List Char → Option (Option Int × List Char)
  | [] => some (none, [])
  | c :: rest =>
      if c = 'e' ∨ c = 'E' then
        match rest with
        | '+' :: rest => signedPower? false rest
        | '-' :: rest => signedPower? true rest
        | rest => signedPower? false rest
      else some (none, c :: rest)

/-- An integer that fits one of the two 64-bit ranges stays an integer.  A
larger one is a double, and so is the negative zero. -/
def ofInteger (negative : Bool) (digits : List Char) : Json :=
  let size := natOfDigits digits
  if negative ∧ 0 < size ∧ size ≤ Nat.pow 2 63 then .int (-size)
  else if !negative ∧ size < Nat.pow 2 64 then .int size
  else
    match (Decimal.Scaled.ofDigits digits [] 0).toDouble? negative with
    | some value => .float value
    | none => .unreadable

/-- A number written with a fraction or with a power. -/
def ofDecimal (negative : Bool) (whole fraction : List Char) (power : Int) : Json :=
  match (Decimal.Scaled.ofDigits whole fraction power).toDouble? negative with
  | some value => .float value
  | none => .unreadable

/-- A number without its sign. -/
def unsignedNumber (negative : Bool) (text : List Char) :
    Option (Json × List Char) := do
  let (whole, rest) ← wholePart? text
  let (fraction, rest) ← fractionPart? rest
  let (power, rest) ← powerPart? rest
  match fraction, power with
  | none, none => return (ofInteger negative whole, rest)
  | fraction, power =>
      return (ofDecimal negative whole (fraction.getD []) (power.getD 0), rest)

def number : List Char → Option (Json × List Char)
  | '-' :: rest => unsignedNumber true rest
  | text => unsignedNumber false text

/-! ## Values -/

/-- An object from its members; a name that denotes no text spoils it. -/
def ofMembers (members : List (Option String × Json)) : Json :=
  match members.mapM fun (name, value) => name.map (·, value) with
  | some named => .obj named
  | none => .unreadable

mutual

/-- The value at the front of a text. -/
def value : Nat → List Char → Option (Json × List Char)
  | 0, _ => none
  | budget + 1, text =>
      match skipBlanks text with
      | '{' :: rest =>
          match skipBlanks rest with
          | '}' :: rest => some (.obj [], rest)
          | rest => do
              let (members, rest) ← namedValues budget rest
              return (ofMembers members, rest)
      | '[' :: rest =>
          match skipBlanks rest with
          | ']' :: rest => some (.arr [], rest)
          | rest => do
              let (items, rest) ← values budget rest
              return (.arr items, rest)
      | '"' :: rest => do
          let (text, rest) ← stringBody rest
          return ((text.map Json.str).getD .unreadable, rest)
      | 'n' :: 'u' :: 'l' :: 'l' :: rest => some (.null, rest)
      | 't' :: 'r' :: 'u' :: 'e' :: rest => some (.bool true, rest)
      | 'f' :: 'a' :: 'l' :: 's' :: 'e' :: rest => some (.bool false, rest)
      | rest => number rest

def values : Nat → List Char → Option (List Json × List Char)
  | 0, _ => none
  | budget + 1, text => do
      let (item, rest) ← value budget text
      match skipBlanks rest with
      | ',' :: rest => do
          let (items, rest) ← values budget rest
          return (item :: items, rest)
      | ']' :: rest => return ([item], rest)
      | _ => none

def namedValues : Nat → List Char →
    Option (List (Option String × Json) × List Char)
  | 0, _ => none
  | budget + 1, text =>
      match skipBlanks text with
      | '"' :: rest => do
          let (name, rest) ← stringBody rest
          match skipBlanks rest with
          | ':' :: rest => do
              let (item, rest) ← value budget rest
              match skipBlanks rest with
              | ',' :: rest => do
                  let (members, rest) ← namedValues budget rest
                  return ((name, item) :: members, rest)
              | '}' :: rest => return ([(name, item)], rest)
              | _ => none
          | _ => none
      | _ => none

end

def ofChars? (text : List Char) : Option Json := do
  let (json, rest) ← value (2 * text.length + 1) text
  if skipBlanks rest = [] then some json else none

/-- The tree of a whole text. -/
def parse? (text : String) : Option Json := ofChars? text.toList

end ProgramQueue.Json
