import ProgramQueue.Json.Printer
import ProgramQueue.Json.Reader
import ProgramQueue.Program

/-!
# Records after they went through a text

A record is kept as a text.  What is read back from the text is the record that was
written, but for its rates: a rate is written with as few digits as tell it from every
other, and reading these rounds more than once, so that it may come back one place off.
Infinite rates, and what is no number, are written as null and do not come back.
-/

namespace ProgramQueue

/-- The rate that the text of a rate is read as. -/
def Double.transcribed (rate : Double) : Option Double :=
  match Json.number (Json.numberLayout.text rate) with
  | some (.float read, []) => some read
  | _ => none

def Condition.transcribed : Condition → Condition
  | priceLevel pair above below =>
      priceLevel pair (above.bind Double.transcribed) (below.bind Double.transcribed)
  | condition => condition

namespace Effect

mutual

/-- The effect with all its rates as their texts are read. -/
def transcribed : Effect → Effect
  | seq index child => seq index (transcribed child)
  | par children => par (transcribedList children)
  | await condition => await condition.transcribed
  | init => init
  | done failure none => done failure none
  | done failure (some branches) => done failure (some (transcribedList branches))

def transcribedList : List Effect → List Effect
  | [] => []
  | child :: rest => transcribed child :: transcribedList rest

end

end Effect

def State.transcribed (state : State) : State :=
  { state with effect := state.effect.map Effect.transcribed }

/-- A program holds no rates; only its state may come back otherwise. -/
def Item.transcribed (item : Item) : Item := { item with state := item.state.transcribed }

end ProgramQueue
