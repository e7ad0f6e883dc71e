import ProgramQueue.Yaml

/-!
# Writing YAML documents

Lists and maps are written in blocks, two blanks to a level; a list below a key
is not indented, and one without items is written in brackets.  A scalar stands
without quotes if it can, in single quotes if it must not be taken for something
else, and in double quotes if it holds what only an escape can denote.  A text of
several lines is written as a block.
-/

namespace ProgramQueue.Yaml

/-! ## What a scalar holds -/

/-- A character that ends a line when a document is read. -/
def endsLine (c : Char) : Bool := isBreak c || c = '\r' || c.toNat = 0x85

/-- A character that can be written as it is. -/
def isWritable (c : Char) : Bool :=
  let n := c.toNat
  n = 0x0A || (0x20 ≤ n && n ≤ 0x7E) ||
    (0xA0 ≤ n && n < 0xFFFE && n != 0xFEFF)

/-- Nothing of a word stands next: a blank, the end of a line or of the text. -/
def wordEnds : List Char → Bool
  | [] => true
  | c :: _ => isBlank c || endsLine c

/-- An indicator that means something at the start of a scalar. -/
def isLeadingMark (c : Char) : Bool :=
  ['#', ',', '[', ']', '\x7b', '\x7d', '&', '*', '!', '|', '>', apostrophe, '"', '%',
    '@', Char.ofNat 0x60].contains c

/-- The first character would be taken for an indicator. -/
def startsWithMark : List Char → Bool
  | [] => false
  | c :: rest =>
      isLeadingMark c || ((c = '?' || c = ':' || c = '-') && wordEnds rest)

/-- After the first character there is a colon that ends a word, or a number
sign that begins one. -/
def holdsMark : List Char → Bool
  | a :: b :: rest =>
      (b = ':' && wordEnds rest) ||
        (b = '#' && (isBlank a || endsLine a)) || holdsMark (b :: rest)
  | _ => false

/-- The text starts like a marker of documents. -/
def startsWithMarker : List Char → Bool
  | '-' :: '-' :: '-' :: _ => true
  | '.' :: '.' :: '.' :: _ => true
  | _ => false

/-- Two characters stand next to each other. -/
def holdsPair (first second : Char → Bool) : List Char → Bool
  | a :: b :: rest => (first a && second b) || holdsPair first second (b :: rest)
  | _ => false

/-- A blank of the kind that folds. -/
def isSpace (c : Char) : Bool := c = ' '

/-- A text that has more than one line. -/
def isMultiline (text : List Char) : Bool := text.any endsLine

/-- A blank before a break is lost, and other characters cannot be written. -/
def needsEscapes (text : List Char) : Bool :=
  holdsPair isSpace endsLine text || text.any fun c => !isWritable c

/-- A text that can stand without quotes in a block. -/
def fitsPlain (text : List Char) : Bool :=
  !(startsWithMark text || holdsMark text || startsWithMarker text ||
    isMultiline text || text.head?.any isSpace || text.getLast?.any isSpace ||
    needsEscapes text)

/-- A text that can stand in single quotes. -/
def fitsSingle (text : List Char) : Bool :=
  !(holdsPair endsLine isSpace text || needsEscapes text)

/-- A text that can be written as a block of lines. -/
def fitsBlock (text : List Char) : Bool :=
  !(text.isEmpty || text.getLast?.any isSpace || needsEscapes text)

/-! ## Quotes -/

/-- A number in so many hexadecimal digits, in upper case. -/
def hexDigits (width n : Nat) : List Char :=
  let digits := (Nat.toDigits 16 n).map Char.toUpper
  List.replicate (width - digits.length) '0' ++ digits

def escapedChars (c : Char) : List Char :=
  let n := c.toNat
  if n = 0x00 then ['\\', '0']
  else if n = 0x07 then ['\\', 'a']
  else if n = 0x08 then ['\\', 'b']
  else if n = 0x09 then ['\\', 't']
  else if n = 0x0A then ['\\', 'n']
  else if n = 0x0B then ['\\', 'v']
  else if n = 0x0C then ['\\', 'f']
  else if n = 0x0D then ['\\', 'r']
  else if n = 0x1B then ['\\', 'e']
  else if c = '"' || c = '\\' then ['\\', c]
  else if n = 0x85 then ['\\', 'N']
  else if n = 0x2028 then ['\\', 'L']
  else if n = 0x2029 then ['\\', 'P']
  else if isWritable c then [c]
  else if n ≤ 0xFF then '\\' :: 'x' :: hexDigits 2 n
  else if n ≤ 0xFFFF then '\\' :: 'u' :: hexDigits 4 n
  else '\\' :: 'U' :: hexDigits 8 n

def inDoubleQuotes (text : List Char) : List Char :=
  '"' :: (text.flatMap escapedChars ++ ['"'])

def margin (indent : Nat) : List Char := List.replicate indent ' '

/-- The lines of a text, each after the first indented unless it is empty. -/
def indentedLines (indent : Nat) (begun : Bool) : List Char → List Char
  | [] => []
  | c :: rest =>
      if isBreak c then c :: indentedLines indent false rest
      else (if begun then [] else margin indent) ++ c :: indentedLines indent true rest

/-- A text in single quotes, where a single quote is written twice. -/
def inSingleQuotes (indent : Nat) (text : List Char) : List Char :=
  let doubled := text.flatMap fun c => if c = apostrophe then [c, c] else [c]
  apostrophe :: (indentedLines indent true doubled ++ [apostrophe])

/-! ## Blocks of lines -/

/-- What says how the block ends: nothing if it ends with a single break. -/
def chompingMark (text : List Char) : List Char :=
  match text.reverse with
  | [] => ['-']
  | [last] => if isBreak last then ['+'] else ['-']
  | last :: before :: _ =>
      if !isBreak last then ['-'] else if isBreak before then ['+'] else []

/-- A text as a block of lines, with the break that ends the last one. -/
def asBlock (indent : Nat) (text : List Char) : List Char :=
  let indentMark := if text.head?.any (fun c => isSpace c || isBreak c) then ['2'] else []
  let ending := if text.getLast?.any isBreak then [] else ['\n']
  '|' :: (indentMark ++ chompingMark text ++ ['\n'] ++
    indentedLines indent false text ++ ending)

/-! ## Nodes -/

/-- A scalar without the break after it; a key stands on a single line. -/
def inlineScalar (indent : Nat) (plain : Bool) (text : String) : List Char :=
  let chars := text.toList
  if plain && fitsPlain chars && !chars.isEmpty then chars
  else if fitsSingle chars then inSingleQuotes indent chars
  else inDoubleQuotes chars

/-- A scalar with the break after it, its lines indented. -/
def scalarLines (indent : Nat) (plain : Bool) (text : String) : List Char :=
  let chars := text.toList
  if chars.contains '\n' then
    if fitsBlock chars then asBlock indent chars else inDoubleQuotes chars ++ ['\n']
  else inlineScalar indent plain text ++ ['\n']

/-- The most bytes of a key that stands before its colon. -/
def longestWrittenKey : Nat := 128

/-- The text of a key that stands before its colon. -/
def shortKey? : Yaml → Option (List Char)
  | scalar plain text =>
      if isMultiline text.toList || longestWrittenKey < text.utf8ByteSize then none
      else some (inlineScalar 0 plain text)
  | list [] => some ['[', ']']
  | map [] => some ['\x7b', '\x7d']
  | _ => none

mutual

/-- A node after a mark or a key that stands at an indentation. -/
def nodeLines (indent : Nat) (ofKey : Bool) : Yaml → List Char
  | scalar plain text => ' ' :: scalarLines (indent + 2) plain text
  | list [] => [' ', '[', ']', '\n']
  | map [] => [' ', '\x7b', '\x7d', '\n']
  | list (item :: rest) =>
      if ofKey then '\n' :: itemsLines indent (item :: rest)
      else ' ' :: (itemsLines (indent + 2) (item :: rest)).drop (indent + 2)
  | map (entry :: rest) =>
      let lines := entriesLines (indent + 2) (entry :: rest)
      if ofKey then '\n' :: lines else ' ' :: lines.drop (indent + 2)

def itemsLines (indent : Nat) : List Yaml → List Char
  | [] => []
  | item :: rest =>
      margin indent ++ '-' :: (nodeLines indent false item ++ itemsLines indent rest)

def entriesLines (indent : Nat) : List (Yaml × Yaml) → List Char
  | [] => []
  | (key, value) :: rest =>
      let entry :=
        match shortKey? key with
        | some text => margin indent ++ text ++ ':' :: nodeLines indent true value
        | none =>
            margin indent ++ '?' :: (nodeLines indent false key ++
              (margin indent ++ ':' :: nodeLines indent false value))
      entry ++ entriesLines indent rest

end

def print : Yaml → String
  | scalar plain text => String.ofList (scalarLines 2 plain text)
  | list [] => "[]\n"
  | map [] => "\x7b\x7d\n"
  | list items => String.ofList (itemsLines 0 items)
  | map entries => String.ofList (entriesLines 0 entries)

end ProgramQueue.Yaml
