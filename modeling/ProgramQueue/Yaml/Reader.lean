import ProgramQueue.Yaml.ScalarReader

/-!
# Reading YAML documents

A text holds at most one document.  Lists and maps are written in blocks, where
the column of their entries sets them apart, or in brackets.  A map needs no mark
of its own: one begins where a node on a single line is followed by a colon.
Anchors, tags and directives are not understood.

A node is read with a margin, which is one more than the column of the block
around it.  The recursion is on a budget of steps that grows with the length of
the text.
-/

namespace ProgramQueue.Yaml

/-- The most characters that a key before a colon may take up. -/
def longestKey : Nat := 1024

/-- The colon after a key that ended at a place, if the key began at another
place of the same line. -/
def colonAfter? (keyStart after : Place) : Option Place :=
  if after.line = keyStart.line && after.column ≤ keyStart.column + longestKey then
    some after.next
  else none

/-! ## In brackets and without children -/

mutual

/-- A scalar or a node in brackets. -/
def inlineNode (inBrackets : Bool) (margin : Nat) :
    Nat → Place → Option (Yaml × Place)
  | 0, _ => none
  | fuel + 1, place =>
      match place.rest with
      | [] => none
      | c :: _ =>
          if c = '[' then do
            let (items, after) ← listInBrackets margin fuel place.next
            return (.list items, after)
          else if c = '\x7b' then do
            let (entries, after) ← mapInBraces margin fuel place.next
            return (.map entries, after)
          else if c = '"' || c = apostrophe then do
            let (text, after) ← quotedChars (c = '"') fuel place.next
            return (.scalar false (String.ofList text), after)
          else if startsPlain inBrackets place.rest then do
            let (text, after) ← plainChars inBrackets margin fuel place
            return (.scalar true (String.ofList text), after)
          else none

/-- A node inside brackets, or nothing before a comma or the closing bracket. -/
def optionalNode (close : Char) (margin : Nat) :
    Nat → Place → Option (Yaml × Place)
  | 0, _ => none
  | fuel + 1, place =>
      let place := place.skipInBrackets
      if place.isMarker then none
      else if place.isAt ',' || place.isAt close then some (blank, place)
      else inlineNode true margin fuel place

/-- The value after a colon, or nothing if there is no colon. -/
def optionalValue (close : Char) (margin : Nat) :
    Nat → Place → Option (Yaml × Place)
  | 0, _ => none
  | fuel + 1, place =>
      let place := place.skipInBrackets
      if place.isAt ':' then optionalNode close margin fuel place.next
      else some (blank, place)

/-- An entry after a question mark. -/
def markedEntry (close : Char) (margin : Nat) :
    Nat → Place → Option ((Yaml × Yaml) × Place)
  | 0, _ => none
  | fuel + 1, place => do
      let start := place.skipInBrackets
      let (key, after) ←
        if start.isAt ':' then some (blank, start)
        else optionalNode close margin fuel start
      let (value, after) ← optionalValue close margin fuel after
      return ((key, value), after)

/-- An entry inside braces; a key without a colon has no value. -/
def entryInBraces (margin : Nat) : Nat → Place → Option ((Yaml × Yaml) × Place)
  | 0, _ => none
  | fuel + 1, place =>
      if place.isAt '?' then markedEntry '\x7d' margin fuel place.next
      else do
        let (key, after) ← inlineNode true margin fuel place
        let colon := after.skipInBrackets
        if colon.isAt ':' then
          let mark ← colonAfter? place colon
          let (value, after) ← optionalNode '\x7d' margin fuel mark
          return ((key, value), after)
        else return ((key, blank), colon)

/-- What follows an opening brace. -/
def mapInBraces (margin : Nat) : Nat → Place → Option (List (Yaml × Yaml) × Place)
  | 0, _ => none
  | fuel + 1, place => do
      let place := place.skipInBrackets
      if place.isMarker then none
      else if place.isAt '\x7d' then some ([], place.next)
      else
        let (entry, after) ← entryInBraces margin fuel place
        let after := after.skipInBrackets
        if after.isAt ',' then
          let (more, last) ← mapInBraces margin fuel after.next
          return (entry :: more, last)
        else if after.isAt '\x7d' then some ([entry], after.next)
        else none

/-- An item inside brackets; one with a colon is a map with a single entry. -/
def itemInBrackets (margin : Nat) : Nat → Place → Option (Yaml × Place)
  | 0, _ => none
  | fuel + 1, place =>
      if place.isAt '?' then do
        let (entry, after) ← markedEntry ']' margin fuel place.next
        return (.map [entry], after)
      else do
        let (item, after) ← inlineNode true margin fuel place
        let colon := after.skipInBrackets
        if colon.isAt ':' then
          let mark ← colonAfter? place colon
          let (value, after) ← optionalNode ']' margin fuel mark
          return (.map [(item, value)], after)
        else return (item, colon)

/-- What follows an opening bracket. -/
def listInBrackets (margin : Nat) : Nat → Place → Option (List Yaml × Place)
  | 0, _ => none
  | fuel + 1, place => do
      let place := place.skipInBrackets
      if place.isMarker then none
      else if place.isAt ']' then some ([], place.next)
      else
        let (item, after) ← itemInBrackets margin fuel place
        let after := after.skipInBrackets
        if after.isAt ',' then
          let (more, last) ← listInBrackets margin fuel after.next
          return (item :: more, last)
        else if after.isAt ']' then some ([item], after.next)
        else none

end

/-! ## In blocks -/

mutual

/-- A node of a block.  A list or a map may begin here only if nothing but marks
stands before it on its line. -/
def blockNode (margin : Nat) (begins : Bool) : Nat → Place → Option (Yaml × Place)
  | 0, _ => none
  | fuel + 1, place =>
      if place.isIndicator '-' then
        if begins then do
          let (items, after) ← blockItems true place.column fuel place
          return (.list items, after)
        else none
      else if place.isIndicator '?' then
        if begins then do
          let (entries, after) ← blockEntries place.column fuel place
          return (.map entries, after)
        else none
      else if place.isAt '|' || place.isAt '>' then do
        let (text, after) ← block? (place.isAt '>') margin place.next
        return (.scalar false (String.ofList text), after)
      else do
        let (node, after) ← inlineNode false margin fuel place
        let colon := after.skip true
        if begins && colon.isIndicator ':' && (colonAfter? place colon).isSome then do
          let (entries, after) ← blockEntries place.column fuel place
          return (.map entries, after)
        else return (node, after)
termination_by structural fuel => fuel

/-- The node below a mark of a block at a column, or nothing.  A list below the
key of a map need not be indented. -/
def nestedNode (column : Nat) (ofMap begins : Bool) :
    Nat → Place → Option (Yaml × Place)
  | 0, _ => none
  | fuel + 1, mark =>
      let place := mark.skip !begins
      if place.atEnd || place.isMarker then some (blank, place)
      else if place.line = mark.line then blockNode (column + 1) begins fuel place
      else if column < place.column then blockNode (column + 1) true fuel place
      else if ofMap && place.column = column && place.isIndicator '-' then do
        let (items, after) ← blockItems false column fuel place
        return (.list items, after)
      else some (blank, place)
termination_by structural fuel => fuel

/-- The items of a list from one at its column.  A list that shares its column
with a map ends where the map goes on. -/
def blockItems (indented : Bool) (column : Nat) :
    Nat → Place → Option (List Yaml × Place)
  | 0, _ => none
  | fuel + 1, place => do
      let (item, after) ← nestedNode column false true fuel place.next
      let after := after.skip true
      if after.atEnd || after.isMarker || after.column < column then
        return ([item], after)
      else if after.column = column && after.isIndicator '-' then
        let (more, last) ← blockItems indented column fuel after
        return (item :: more, last)
      else if after.column = column && !indented then return ([item], after)
      else none
termination_by structural fuel => fuel

/-- An entry of a map at its column. -/
def blockEntry (column : Nat) : Nat → Place → Option ((Yaml × Yaml) × Place)
  | 0, _ => none
  | fuel + 1, place =>
      if place.isIndicator '?' then do
        let (key, after) ← nestedNode column true true fuel place.next
        let after := after.skip true
        if after.column = column && after.isIndicator ':' then
          let (value, after) ← nestedNode column true true fuel after.next
          return ((key, value), after)
        else return ((key, blank), after)
      else do
        let (key, after) ← inlineNode false (column + 1) fuel place
        let colon := after.skip true
        let mark ← if colon.isIndicator ':' then colonAfter? place colon else none
        let (value, after) ← nestedNode column true false fuel mark
        return ((key, value), after)
termination_by structural fuel => fuel

/-- The entries of a map from a place between them. -/
def blockEntries (column : Nat) :
    Nat → Place → Option (List (Yaml × Yaml) × Place)
  | 0, _ => none
  | fuel + 1, place => do
      let (entry, after) ← blockEntry column fuel place
      let after := after.skip true
      if after.atEnd || after.isMarker || after.column < column then
        return ([entry], after)
      else if after.column = column then
        let (more, last) ← blockEntries column fuel after
        return (entry :: more, last)
      else none
termination_by structural fuel => fuel

end

/-! ## Documents -/

/-- A character that a text may hold. -/
def isAllowed (c : Char) : Bool :=
  let n := c.toNat
  n = 0x09 || n = 0x0A || n = 0x0D || (0x20 ≤ n && n ≤ 0x7E) || n = 0x85 ||
    (0xA0 ≤ n && n != 0xFEFF && n != 0xFFFE && n != 0xFFFF)

/-- The text with all breaks but two kinds written as line feeds. -/
def uniformBreaks : List Char → List Char
  | [] => []
  | '\r' :: '\n' :: rest => '\n' :: uniformBreaks rest
  | c :: rest =>
      (if c = '\r' || c.toNat = 0x85 then '\n' else c) :: uniformBreaks rest

/-- The text without a byte order mark in front of it. -/
def withoutMark : List Char → List Char
  | c :: rest => if c.toNat = 0xFEFF then rest else c :: rest
  | [] => []

/-- The document that starts after blanks, with the place after it. -/
def document? (fuel : Nat) (place : Place) : Option (Yaml × Place) :=
  if place.isMarkerOf '-' then
    let mark := place.advance 3
    let place := mark.skip true
    if place.atEnd || place.isMarker then some (blank, place)
    else blockNode 0 (place.line != mark.line) fuel place
  else if place.atEnd then some (blank, place)
  else if place.isMarker then none
  else blockNode 0 true fuel place

/-- Nothing but ends of the document follows. -/
def endsHere : Nat → Place → Bool
  | 0, _ => false
  | fuel + 1, place =>
      let place := place.skip true
      place.atEnd ||
        (place.isMarkerOf '.' && endsHere fuel (place.advance 3))

/-- The document that a text denotes; a text without one is blank. -/
def parse? (text : String) : Option Yaml := do
  let chars := withoutMark text.toList
  if !chars.all isAllowed then none
  else
    let chars := uniformBreaks chars
    let fuel := 8 * (chars.length + 2)
    let (node, after) ← document? fuel ((Place.start chars).skip false)
    if endsHere fuel after then some node else none

end ProgramQueue.Yaml
