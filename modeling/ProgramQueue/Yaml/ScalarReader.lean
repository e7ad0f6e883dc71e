import ProgramQueue.Hex
import ProgramQueue.Yaml.Place

/-!
# Reading scalars

Scalars stand in single quotes, in double quotes with escapes, without quotes,
or as a block of lines.  Each function takes the place where a scalar goes on and
returns the characters that follow with the place after them; `none` means that
the text is malformed.  The recursion is on a budget of steps, for which the
length of the text is always enough.
-/

namespace ProgramQueue.Yaml

/-! ## In quotes -/

/-- The character that a letter after a backslash stands for. -/
def shortEscape? : Char → Option Char
  | '0' => some (Char.ofNat 0)
  | 'a' => some (Char.ofNat 0x07)
  | 'b' => some (Char.ofNat 0x08)
  | 't' => some '\t'
  | '\t' => some '\t'
  | 'n' => some '\n'
  | 'v' => some (Char.ofNat 0x0B)
  | 'f' => some (Char.ofNat 0x0C)
  | 'r' => some (Char.ofNat 0x0D)
  | 'e' => some (Char.ofNat 0x1B)
  | ' ' => some ' '
  | '"' => some '"'
  | '/' => some '/'
  | '\\' => some '\\'
  | 'N' => some (Char.ofNat 0x85)
  | '_' => some (Char.ofNat 0xA0)
  | 'L' => some (Char.ofNat 0x2028)
  | 'P' => some (Char.ofNat 0x2029)
  | _ => none

/-- How many hexadecimal digits follow a letter after a backslash. -/
def escapeWidth? : Char → Option Nat
  | 'x' => some 2
  | 'u' => some 4
  | 'U' => some 8
  | _ => none

/-- The number that hexadecimal digits denote. -/
def hexNumber? (digits : List Char) : Option Nat :=
  digits.foldlM (fun n c => (Hex.value? c).map (n * 16 + ·)) 0

/-- The character that follows a backslash, and how long its name is. -/
def escaped? : List Char → Option (Char × Nat)
  | [] => none
  | letter :: rest =>
      match escapeWidth? letter with
      | none => (shortEscape? letter).map fun c => (c, 1)
      | some width => do
          let digits := rest.take width
          let n ← if digits.length = width then hexNumber? digits else none
          if h : n.isValidChar then some (Char.ofNatAux n h, width + 1) else none

/-- The rest of a scalar in quotes, up to the closing one. -/
def quotedChars (double : Bool) : Nat → Place → Option (List Char × Place)
  | 0, _ => none
  | fuel + 1, place =>
      if place.isMarker then none
      else
        match place.rest with
        | [] => none
        | c :: rest =>
            if isBlank c || isBreak c then do
              let (gap, after) ← place.gap 0
              let (more, after) ← quotedChars double fuel after
              return (gap.text ++ more, after)
            else if double && c = '"' then some ([], place.next)
            else if double && c = '\\' then
              if rest.head?.any isBreak then do
                let (gap, after) ← place.next.next.gapAfterEscape
                let (more, after) ← quotedChars double fuel after
                return (gap.text ++ more, after)
              else do
                let (c, length) ← escaped? rest
                let (more, after) ← quotedChars double fuel (place.advance (length + 1))
                return (c :: more, after)
            else if !double && c = apostrophe then
              if rest.head? = some apostrophe then do
                let (more, after) ← quotedChars double fuel place.next.next
                return (c :: more, after)
              else some ([], place.next)
            else do
              let (more, after) ← quotedChars double fuel place.next
              return (c :: more, after)

/-! ## Without quotes -/

/-- A bracket or comma, which ends a scalar inside brackets. -/
def isFlowMark (c : Char) : Bool := [',', '[', ']', '\x7b', '\x7d'].contains c

/-- A character that no scalar without quotes starts with. -/
def isReserved (c : Char) : Bool :=
  isFlowMark c ||
    ['-', '?', ':', '#', '&', '*', '!', '|', '>', apostrophe, '"', '%', '@',
      Char.ofNat 0x60].contains c

/-- A scalar without quotes may start here. -/
def startsPlain (inBrackets : Bool) : List Char → Bool
  | [] => false
  | c :: rest =>
      if isBlank c || isBreak c then false
      else if c = '-' then !endsWord rest
      else if c = '?' || c = ':' then !inBrackets && !endsWord rest
      else !isReserved c

/-- A colon inside brackets that belongs to nothing. -/
def isLooseColon : List Char → Bool
  | ':' :: c :: _ => isFlowMark c || c = '?'
  | _ => false

/-- A scalar without quotes ends here. -/
def endsPlain (inBrackets : Bool) : List Char → Bool
  | [] => true
  | c :: rest => (c = ':' && endsWord rest) || (inBrackets && isFlowMark c)

/-- The rest of a scalar without quotes.  Its lines stand to the right of the
margin; blanks at the end do not belong to it. -/
def plainChars (inBrackets : Bool) (margin : Nat) :
    Nat → Place → Option (List Char × Place)
  | 0, _ => none
  | fuel + 1, place =>
      if place.isMarker then some ([], place)
      else if inBrackets && isLooseColon place.rest then none
      else if endsPlain inBrackets place.rest then some ([], place)
      else
        match place.rest with
        | [] => some ([], place)
        | c :: _ =>
            if isBlank c || isBreak c then do
              let (gap, after) ← place.gap margin
              if (!inBrackets && after.column < margin) || after.isAt '#' then
                return ([], after)
              let (more, last) ← plainChars inBrackets margin fuel after
              return (if more.isEmpty then [] else gap.text ++ more, last)
            else do
              let (more, after) ← plainChars inBrackets margin fuel place.next
              return (c :: more, after)

/-! ## Blocks of lines -/

/-- What becomes of the breaks at the end of a block. -/
inductive Chomping where
  /-- None is kept. -/
  | strip
  /-- One is kept. -/
  | clip
  /-- All are kept. -/
  | keep
deriving DecidableEq, Repr

/-- How a block of lines is to be read. -/
structure BlockStyle where
  /-- Lines are joined by blanks. -/
  folded : Bool
  chomping : Chomping
  /-- By how much the lines are indented, if that is said. -/
  indent : Option Nat

/-- The sign for the breaks at the end. -/
def chomping? : List Char → Option (Chomping × List Char)
  | '+' :: rest => some (.keep, rest)
  | '-' :: rest => some (.strip, rest)
  | _ => none

/-- The digit for the indentation; zero is none. -/
def indent? : List Char → Option (Option Nat × List Char)
  | c :: rest =>
      if c = '0' then none
      else if c.isDigit then some (some (c.toNat - '0'.toNat), rest)
      else some (none, c :: rest)
  | [] => some (none, [])

/-- The two signs that may follow the mark of a block, in either order. -/
def blockStyle? (folded : Bool) (text : List Char) :
    Option (BlockStyle × List Char) := do
  match chomping? text with
  | some (chomping, rest) =>
      let (indent, rest) ← indent? rest
      return (⟨folded, chomping, indent⟩, rest)
  | none =>
      let (indent, rest) ← indent? text
      match indent, chomping? rest with
      | some _, some (chomping, rest) => return (⟨folded, chomping, indent⟩, rest)
      | _, _ => return (⟨folded, .clip, indent⟩, rest)

/-- The breaks of blank lines, the widest of their indentations, and the place
of the first line that is not blank or is indented as far as the block. -/
def blankLines (indent : Option Nat) (breaks : List Char) (widest : Nat) :
    List Char → (line column : Nat) → Option (List Char × Nat × Place)
  | [], line, column => some (breaks, max widest column, ⟨[], line, column⟩)
  | c :: rest, line, column =>
      let outside := indent.all (column < ·)
      if outside && c = ' ' then blankLines indent breaks widest rest line (column + 1)
      else if outside && c = '\t' then none
      else if isBreak c then
        blankLines indent (breaks ++ [c]) (max widest column) rest (line + 1) 0
      else some (breaks, max widest column, ⟨c :: rest, line, column⟩)

/-- What joins two lines of a block. -/
def lineGlue (folded : Bool) (lineBreak breaks : List Char) (indented : Bool) :
    List Char :=
  if folded && lineBreak = ['\n'] && !indented then
    if breaks.isEmpty then [' '] else breaks
  else lineBreak ++ breaks

/-- The lines of a block from one that is indented far enough, given the break
that ended the line before, the blank lines after it, and whether it began with
a blank. -/
def blockLines (style : BlockStyle) (indent : Nat) :
    Nat → (lineBreak breaks : List Char) → (indented : Bool) → Place →
      Option (List Char × Place)
  | 0, _, _, _, _ => none
  | fuel + 1, lineBreak, breaks, indented, place =>
      if place.column != indent || place.atEnd then
        let tail := match style.chomping with
          | .strip => []
          | .clip => lineBreak
          | .keep => lineBreak ++ breaks
        some (tail, place)
      else do
        let begins := place.rest.head?.any isBlank
        let glue := lineGlue style.folded lineBreak breaks (indented || begins)
        let text := place.rest.takeWhile fun c => !isBreak c
        let rest := place.rest.drop text.length
        let (breaks, _, after) ←
          match rest with
          | [] => some ([], 0, ⟨[], place.line, place.column + text.length⟩)
          | _ :: rest => blankLines (some indent) [] 0 rest (place.line + 1) 0
        let (more, last) ←
          blockLines style indent fuel (rest.take 1) breaks begins after
        return (glue ++ text ++ more, last)

/-- A block of lines after its mark, to the right of a margin. -/
def block? (folded : Bool) (margin : Nat) (place : Place) :
    Option (List Char × Place) := do
  let (style, rest) ← blockStyle? folded place.rest
  let rest := rest.dropWhile isBlank
  let rest := if rest.head? = some '#' then rest.dropWhile (!isBreak ·) else rest
  let (line, rest) ←
    match rest with
    | [] => some (place.line, [])
    | c :: rest => if isBreak c then some (place.line + 1, rest) else none
  let (breaks, widest, first) ←
    blankLines (style.indent.map (margin - 1 + ·)) [] 0 rest line 0
  let indent := match style.indent with
    | some n => margin - 1 + n
    | none => max widest (max margin 1)
  blockLines style indent (rest.length + 1) [] breaks false first

end ProgramQueue.Yaml
