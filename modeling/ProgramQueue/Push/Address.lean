import ProgramQueue.Hex

/-!
# Addresses of servers

A request is sent to an absolute `http` or `https` address.  Of the address the
server sees only the target: the path, without dot segments, and the query, both
in ASCII.
-/

namespace ProgramQueue.Push

structure Address where
  /-- The connection is encrypted. -/
  secure : Bool
  host : String
  /-- The port, if it is not the usual one. -/
  port : Option Nat
  /-- The path and the query. -/
  target : String
deriving DecidableEq, Repr

namespace Address

/-! ## Characters -/

/-- A control character of ASCII. -/
def isControl (c : Char) : Bool := c.toNat < 0x20 || c.toNat = 0x7F

/-- A character that is taken off both ends of an address. -/
def isMargin (c : Char) : Bool := c.toNat ≤ 0x20

/-- A character that counts for nothing wherever it stands. -/
def isInvisible (c : Char) : Bool := c = '\t' || c = '\n' || c = '\r'

/-- Slashes lean either way. -/
def isSlash (c : Char) : Bool := c = '/' || c = '\\'

/-- A character that a host name cannot hold. -/
def isForbiddenInHost (c : Char) : Bool :=
  isControl c ||
    [' ', '"', '#', '%', '/', ':', '<', '>', '?', '@', '[', '\\', ']', '^', '|',
      '{', '}', Char.ofNat 0x60].contains c

/-- A character that is written in hexadecimal in a path. -/
def isEscapedInPath (c : Char) : Bool :=
  isControl c || 0x80 ≤ c.toNat ||
    [' ', '"', '#', '<', '>', '?', '{', '}', Char.ofNat 0x60].contains c

/-- A character that is written in hexadecimal in a query. -/
def isEscapedInQuery (c : Char) : Bool :=
  isControl c || 0x80 ≤ c.toNat || [' ', '"', '#', '<', '>', Char.ofNat 0x27].contains c

/-- The bytes of a character, each as a percent sign and two digits. -/
def escape (c : Char) : List Char :=
  (c.toString.toUTF8.toList).flatMap fun byte =>
    '%' :: (Nat.toDigits 16 (byte.toNat / 16) ++ Nat.toDigits 16 (byte.toNat % 16)).map
      Char.toUpper

/-- The text with the characters of a class in hexadecimal. -/
def escapeAll (isEscaped : Char → Bool) (text : List Char) : List Char :=
  text.flatMap fun c => if isEscaped c then escape c else [c]

/-! ## Paths -/

/-- The parts of a path between slashes. -/
def segments : List Char → List (List Char)
  | [] => [[]]
  | c :: rest =>
      if isSlash c then [] :: segments rest
      else
        match segments rest with
        | [] => [[c]]
        | first :: others => (c :: first) :: others

/-- A dot, plain or in hexadecimal, taken off the front. -/
def dot? : List Char → Option (List Char)
  | '.' :: rest => some rest
  | '%' :: '2' :: 'e' :: rest => some rest
  | '%' :: '2' :: 'E' :: rest => some rest
  | _ => none

/-- The segment that stands for the folder itself. -/
def isHere (segment : List Char) : Bool := dot? segment = some []

/-- The segment that stands for the folder above. -/
def isAbove (segment : List Char) : Bool := (dot? segment).bind dot? = some []

/-- The segments without dot segments, given those before them in reverse.  A
dot segment at the end leaves an empty one. -/
def resolve (before : List (List Char)) : List (List Char) → List (List Char)
  | [] => before.reverse
  | [last] =>
      if isAbove last then (before.drop 1).reverse ++ [[]]
      else if isHere last then before.reverse ++ [[]]
      else before.reverse ++ [last]
  | segment :: rest =>
      if isAbove segment then resolve (before.drop 1) rest
      else if isHere segment then resolve before rest
      else resolve (segment :: before) rest

/-- A path as the server sees it. -/
def pathTarget (path : List Char) : List Char :=
  let path := if path.head?.any isSlash then path.drop 1 else path
  (resolve [] (segments path)).flatMap fun segment =>
    '/' :: escapeAll isEscapedInPath segment

/-! ## Reading -/

/-- What follows the name of the scheme, and whether it is the encrypted one. -/
def scheme? (text : List Char) : Option (Bool × List Char) :=
  let name := (text.takeWhile (· != ':')).map Char.toLower
  let rest := text.dropWhile (· != ':')
  if rest.isEmpty then none
  else if name = ['h', 't', 't', 'p'] then some (false, rest.drop 1)
  else if name = ['h', 't', 't', 'p', 's'] then some (true, rest.drop 1)
  else none

/-- The number of a port, or none for the usual one. -/
def port? (digits : List Char) : Option (Option Nat) :=
  if digits.all Char.isDigit then
    let n := digits.foldl (fun n c => n * 10 + (c.toNat - '0'.toNat)) 0
    if digits.isEmpty then some none
    else if n < Nat.pow 2 16 then some (some n)
    else none
  else none

/-- The end of a list after the last element with a property. -/
def afterLast (isMark : Char → Bool) (text : List Char) : List Char :=
  (text.reverse.takeWhile fun c => !isMark c).reverse

/-- A host with its port. -/
def hostAndPort? (text : List Char) : Option (String × Option Nat) := do
  let (host, rest) ←
    if text.head? = some '[' then
      let inner := (text.drop 1).takeWhile (· != ']')
      let rest := (text.drop 1).dropWhile (· != ']')
      if rest.isEmpty || !inner.all (fun c => c.isAlphanum || c = ':' || c = '.') then
        none
      else some ('[' :: inner ++ [']'], rest.drop 1)
    else
      let host := text.takeWhile (· != ':')
      if host.any isForbiddenInHost then none
      else some (host, text.dropWhile (· != ':'))
  let port ←
    match rest with
    | [] => some none
    | ':' :: digits => port? digits
    | _ => none
  if host.isEmpty then none
  else some (String.ofList (host.map Char.toLower), port)

/-- The path and the query of an address, as the server sees them; what follows
a number sign is not sent. -/
def targetChars (text : List Char) : List Char :=
  let text := text.takeWhile (· != '#')
  let path := text.takeWhile (· != '?')
  let query := text.dropWhile (· != '?')
  pathTarget path ++ escapeAll isEscapedInQuery query

/-- The absolute address that a text denotes. -/
def ofText? (text : String) : Option Address := do
  let chars := ((text.toList.dropWhile isMargin).reverse.dropWhile isMargin).reverse
  let (secure, rest) ← scheme? (chars.filter fun c => !isInvisible c)
  let rest := rest.dropWhile isSlash
  let isEnd (c : Char) : Bool := isSlash c || c = '?' || c = '#'
  let authority := rest.takeWhile fun c => !isEnd c
  let (host, port) ← hostAndPort? (afterLast (· = '@') authority)
  let usual := if secure then 443 else 80
  return {
    secure, host
    port := if port = some usual then none else port
    target := String.ofList (targetChars (rest.dropWhile fun c => !isEnd c)) }

end Address

end ProgramQueue.Push
