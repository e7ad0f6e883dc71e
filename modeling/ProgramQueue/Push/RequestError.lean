/-!
# Errors of the push server

A request can fail on the way, be refused by the server, or be answered in a way
that cannot be read.  Failures on the way and refusals that may pass are worth
another attempt; every other error means that the request itself is wrong.
-/

namespace ProgramQueue.Push

/-- Why a request got no answer. -/
inductive TransportFailure where
  | refused
  | closed
  | timedOut
  /-- The address is no absolute address of a server. -/
  | badAddress
  /-- A header cannot be sent. -/
  | badHeader
  /-- The body of the answer is no text that can be received. -/
  | badBody
  /-- The request was sent on to other addresses without end. -/
  | redirected
deriving DecidableEq, Repr

/-- What can go wrong with a request to the push server. -/
inductive RequestError where
  | http (failure : TransportFailure)
  | status (path : String) (code : Nat) (body : String)
  | parse (path : String)
  | config (reason : String)
deriving DecidableEq, Repr

namespace TransportFailure

def message : TransportFailure → String
  | refused => "connection refused"
  | closed => "connection closed before the response"
  | timedOut => "operation timed out"
  | badAddress => "invalid address"
  | badHeader => "invalid header"
  | badBody => "invalid response body"
  | redirected => "too many redirects"

/-- The same request may get through later. -/
def isRetryable : TransportFailure → Bool
  | refused => true
  | closed => true
  | timedOut => true
  | badAddress => false
  | badHeader => false
  | badBody => false
  | redirected => false

end TransportFailure

namespace RequestError

def message : RequestError → String
  | http failure => s!"push request failed: {failure.message}"
  | status path code body =>
      s!"push server returned {code} for {path}: {body}"
  | parse path =>
      s!"failed to parse push server response from {path}: malformed response"
  | config reason => s!"invalid push client configuration: {reason}"

/-- Another attempt is worth while: the request did not get through, or the
server cannot serve it now. -/
def isRetryable : RequestError → Bool
  | http failure => failure.isRetryable
  | status _ code _ => 500 ≤ code || code = 429
  | parse _ => false
  | config _ => false

end RequestError

end ProgramQueue.Push
