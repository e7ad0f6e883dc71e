import ProgramQueue.Yaml

/-!
# Places in a YAML text

Lines and columns carry meaning, so a reader keeps count of them.  Between two
nodes blanks, comments and breaks are passed over.  Blanks and breaks inside a
scalar fold: a single break is a blank, and of several the first is dropped.
-/

namespace ProgramQueue.Yaml

/-- What is left of a text, and where it starts. -/
structure Place where
  rest : List Char
  line : Nat
  column : Nat
deriving Repr

namespace Place

def start (text : List Char) : Place := ⟨text, 0, 0⟩

def next (place : Place) : Place :=
  match place.rest with
  | [] => place
  | c :: rest =>
      if isBreak c then ⟨rest, place.line + 1, 0⟩
      else ⟨rest, place.line, place.column + 1⟩

/-- The place after so many characters. -/
def advance (place : Place) : (count : Nat) → Place
  | 0 => place
  | count + 1 => place.next.advance count

def atEnd (place : Place) : Bool := place.rest.isEmpty

/-- An indicator stands here as a word of its own. -/
def isIndicator (mark : Char) (place : Place) : Bool :=
  match place.rest with
  | c :: rest => c = mark && endsWord rest
  | [] => false

def isAt (mark : Char) (place : Place) : Bool := place.rest.head? = some mark

/-- A marker of three equal characters stands at the start of the line. -/
def isMarkerOf (mark : Char) (place : Place) : Bool :=
  match place.column, place.rest with
  | 0, a :: b :: c :: rest => a = mark && b = mark && c = mark && endsWord rest
  | _, _ => false

/-- A document starts or ends here. -/
def isMarker (place : Place) : Bool := place.isMarkerOf '-' || place.isMarkerOf '.'

/-! ## Between nodes -/

/-- Passes over blanks, comments and breaks.  Tabs count as blanks where a node
cannot start a block; after a break that holds only inside brackets. -/
def skipFrom (inBrackets tabs comment : Bool) :
    List Char → (line column : Nat) → Place
  | [], line, column => ⟨[], line, column⟩
  | c :: rest, line, column =>
      if isBreak c then skipFrom inBrackets inBrackets false rest (line + 1) 0
      else if comment || c = ' ' || (tabs && c = '\t') then
        skipFrom inBrackets tabs comment rest line (column + 1)
      else if c = '#' then skipFrom inBrackets tabs true rest line (column + 1)
      else ⟨c :: rest, line, column⟩

/-- The next place between block nodes. -/
def skip (tabs : Bool) (place : Place) : Place :=
  skipFrom false tabs false place.rest place.line place.column

/-- The next place inside brackets. -/
def skipInBrackets (place : Place) : Place :=
  skipFrom true true false place.rest place.line place.column

/-! ## Inside scalars -/

/-- Blanks and breaks between two parts of a scalar. -/
structure Gap where
  /-- The blanks before the first break. -/
  blanks : List Char
  breaks : List Char
  /-- A break before these was written only to end the line. -/
  escaped : Bool

/-- A new line has begun. -/
def Gap.isBroken (gap : Gap) : Bool := gap.escaped || !gap.breaks.isEmpty

/-- The text that a gap stands for. -/
def Gap.text (gap : Gap) : List Char :=
  if gap.escaped then gap.breaks
  else
    match gap.breaks with
    | [] => gap.blanks
    | ['\n'] => [' ']
    | '\n' :: more => more
    | breaks => breaks

/-- Takes in blanks and breaks.  A tab to the left of the margin of a new line
is out of place. -/
def gapFrom (margin : Nat) (gap : Gap) :
    List Char → (line column : Nat) → Option (Gap × Place)
  | [], line, column => some (gap, ⟨[], line, column⟩)
  | c :: rest, line, column =>
      if isBreak c then
        gapFrom margin { gap with breaks := gap.breaks ++ [c] } rest (line + 1) 0
      else if isBlank c then
        if !gap.isBroken then
          gapFrom margin { gap with blanks := gap.blanks ++ [c] } rest line (column + 1)
        else if c = '\t' && column < margin then none
        else gapFrom margin gap rest line (column + 1)
      else some (gap, ⟨c :: rest, line, column⟩)

/-- The blanks and breaks that follow. -/
def gap (margin : Nat) (place : Place) : Option (Gap × Place) :=
  gapFrom margin ⟨[], [], false⟩ place.rest place.line place.column

/-- The blanks and breaks that follow a break which only ends the line. -/
def gapAfterEscape (place : Place) : Option (Gap × Place) :=
  gapFrom 0 ⟨[], [], true⟩ place.rest place.line place.column

end Place

end ProgramQueue.Yaml
