/-!
# The operator's command line

The arguments name one command.  Options may stand before and after its name,
each once in either place; what stands after counts for more.  After two dashes
nothing is an option any more.
-/

namespace ProgramQueue.Operator

inductive Command where
  | init
  | list
  | showProgram (id : String)
  | cancel (id : String)
  | remove (id : String)
  | prune
  | recover
  | sync
  | showConfig
  | validateConfig
deriving DecidableEq, Repr

/-- A command with its options. -/
structure Invocation where
  /-- The folder that holds the queue, if it is named. -/
  root : Option String
  json : Bool
  command : Command
deriving DecidableEq, Repr

/-- What arguments ask for. -/
inductive Request where
  | perform (invocation : Invocation)
  /-- The name and version of the tool or of one of its commands. -/
  | version (name : String)
  /-- How the tool is used. -/
  | usage
deriving DecidableEq, Repr

namespace Invocation

def tool : String := "aq"

/-- The options given at one place. -/
structure Options where
  root : Option String
  json : Bool
deriving DecidableEq, Repr

def Options.none : Options := ⟨Option.none, false⟩

/-- What arguments so far have led to. -/
inductive Place where
  /-- A command is to be named. -/
  | top
  /-- A command on the configuration is to be named. -/
  | config
  /-- A command that takes no more arguments. -/
  | complete (command : Command)
  /-- A command that takes the id of a program. -/
  | awaitingId (name : String) (command : String → Command)

def Place.words : Place → List String
  | top => []
  | config => ["config"]
  | awaitingId name _ => [name]
  | complete command =>
      match command with
      | .init => ["init"]
      | .list => ["list"]
      | .showProgram _ => ["show"]
      | .cancel _ => ["cancel"]
      | .remove _ => ["remove"]
      | .prune => ["prune"]
      | .recover => ["recover"]
      | .sync => ["sync"]
      | .showConfig => ["config", "show"]
      | .validateConfig => ["config", "validate"]

/-- The name that a place goes by. -/
def Place.name (place : Place) : String := "-".intercalate (tool :: place.words)

/-- Where a word leads to; a place of its own if the word names a command, the
same place if it is the id that was awaited. -/
def Place.follow? : Place → String → Option Place
  | top, "init" => some (complete .init)
  | top, "list" => some (complete .list)
  | top, "show" => some (awaitingId "show" .showProgram)
  | top, "cancel" => some (awaitingId "cancel" .cancel)
  | top, "remove" => some (awaitingId "remove" .remove)
  | top, "prune" => some (complete .prune)
  | top, "recover" => some (complete .recover)
  | top, "sync" => some (complete .sync)
  | top, "config" => some config
  | config, "show" => some (complete .showConfig)
  | config, "validate" => some (complete .validateConfig)
  | awaitingId _ command, id => some (complete (command id))
  | _, _ => none

/-- A word at this place names a command. -/
def Place.namesCommand : Place → Bool
  | top => true
  | config => true
  | _ => false

structure Reading where
  place : Place
  /-- The options before the innermost command. -/
  outer : Options
  /-- The options since. -/
  inner : Options
  /-- Two dashes have been seen. -/
  closed : Bool

/-- What a single argument comes to. -/
inductive Step where
  | go (reading : Reading)
  | stop (request : Request)

/-- Names the folder of the queue; a second time is one too many. -/
def Reading.setRoot? (reading : Reading) (root : String) : Option Reading :=
  if reading.inner.root.isSome || root.isEmpty then none
  else some { reading with inner := { reading.inner with root := some root } }

/-- Asks for JSON; a second time is one too many. -/
def Reading.setJson? (reading : Reading) : Option Reading :=
  if reading.inner.json then none
  else some { reading with inner := { reading.inner with json := true } }

/-- Takes in the letters after a single dash. -/
def Reading.letters? (reading : Reading) : List Char → Option Step
  | [] => some (.go reading)
  | 'j' :: rest => reading.setJson?.bind fun reading => reading.letters? rest
  | 'V' :: _ => some (.stop (.version reading.place.name))
  | 'h' :: _ => some (.stop .usage)
  | _ => none

/-- Options of which those given later count for more. -/
def Options.over (later earlier : Options) : Options where
  root := later.root.orElse fun _ => earlier.root
  json := later.json || earlier.json

/-- Takes in a word that is no option. -/
def Reading.word? (reading : Reading) (word : String) : Option Step :=
  if reading.place.namesCommand then
    if reading.closed then none
    else if word = "help" then some (.stop .usage)
    else
      (reading.place.follow? word).map fun place =>
        .go { reading with
          place, outer := reading.inner.over reading.outer, inner := .none }
  else (reading.place.follow? word).map fun place => .go { reading with place }

/-- The value of an option that is written into the same argument. -/
def valueAfter? (option argument : String) : Option String :=
  let start := (option ++ "=").toList
  if start.isPrefixOf argument.toList then
    some (String.ofList (argument.toList.drop start.length))
  else none

/-- Takes in one argument that is no option with a value of its own. -/
def Reading.argument? (reading : Reading) (argument : String) : Option Step :=
  if reading.closed then reading.word? argument
  else
    match argument.toList with
    | ['-', '-'] => some (.go { reading with closed := true })
    | '-' :: '-' :: _ =>
        match argument with
        | "--json" => reading.setJson?.map .go
        | "--version" => some (.stop (.version reading.place.name))
        | "--help" => some (.stop .usage)
        | _ =>
            (valueAfter? "--root" argument).bind fun root =>
              (reading.setRoot? root).map .go
    | '-' :: letter :: rest => reading.letters? (letter :: rest)
    | _ => reading.word? argument

/-- A text that can be the value of an option. -/
def isValue (argument : String) : Bool :=
  match argument.toList with
  | ['-'] => true
  | '-' :: _ => false
  | _ => true

/-- The invocation that the arguments have led to. -/
def Reading.finish? (reading : Reading) (usualRoot : Option String) :
    Option Invocation :=
  match reading.place with
  | .complete command =>
      let options := reading.inner.over reading.outer
      let root := options.root.orElse fun _ => usualRoot
      if root = some "" then none else some ⟨root, options.json, command⟩
  | _ => none

/-- Takes in arguments one by one. -/
def Reading.arguments? (reading : Reading) (usualRoot : Option String) :
    List String → Option Request
  | [] => (reading.finish? usualRoot).map .perform
  | ["--root"] =>
      if reading.closed then
        match reading.argument? "--root" with
        | some (.go reading) => (reading.finish? usualRoot).map .perform
        | some (.stop request) => some request
        | none => none
      else none
  | argument :: value :: rest =>
      if argument = "--root" && !reading.closed then
        if isValue value then
          (reading.setRoot? value).bind fun reading => reading.arguments? usualRoot rest
        else none
      else
        match reading.argument? argument with
        | some (.go reading) => reading.arguments? usualRoot (value :: rest)
        | some (.stop request) => some request
        | none => none
  | [argument] =>
      match reading.argument? argument with
      | some (.go reading) => (reading.finish? usualRoot).map .perform
      | some (.stop request) => some request
      | none => none

/-- What arguments ask for, given the folder that is taken if none is named;
nothing if they make no sense. -/
def parse? (usualRoot : Option String) (arguments : List String) : Option Request :=
  Reading.arguments? ⟨.top, .none, .none, false⟩ usualRoot arguments

end Invocation

end ProgramQueue.Operator
