import ProgramQueue.Push.Client

/-!
# A server with prepared answers

A network that has one server on it.  The server answers each message that
reaches it with the next of its prepared answers, and with an empty success when
they are used up.  It keeps what it received; waiting costs nothing but is
counted.
-/

namespace ProgramQueue.Push

/-- The state of a network with one server. -/
structure Prepared where
  host : String
  port : Nat
  /-- The answers that are left; none at all if nobody listens. -/
  answers : Option (List (Except TransportFailure Response))
  /-- The messages that arrived, in order. -/
  received : List (Address × Message)
  waited : Nat

namespace Prepared

/-- A server that has received nothing. -/
def server (host : String) (port : Nat)
    (answers : Option (List (Except TransportFailure Response))) : Prepared :=
  ⟨host, port, answers, [], 0⟩

def isAt (server : Prepared) (address : Address) : Bool :=
  address.host = server.host && address.port = some server.port

def next : List (Except TransportFailure Response) → Except TransportFailure Response
  | [] => .ok ⟨200, ""⟩
  | answer :: _ => answer

/-- Delivers a message, if there is someone to receive it. -/
def send (address : Address) (message : Message) (server : Prepared) :
    Except TransportFailure Response × Prepared :=
  match server.answers with
  | none => (.error .refused, server)
  | some answers =>
      if server.isAt address then
        (next answers,
          { server with
            answers := some answers.tail
            received := server.received ++ [(address, message)] })
      else (.error .refused, server)

def wait (ms : Nat) (server : Prepared) : Prepared :=
  { server with waited := server.waited + ms }

/-- The network with the server on it. -/
def world : World Network Prepared := network send wait

end Prepared

end ProgramQueue.Push
