import ProgramQueue.Json.Printer
import ProgramQueue.Json.Reader
import ProgramQueue.Push.Address
import ProgramQueue.Push.Backoff
import ProgramQueue.Push.RequestError
import ProgramQueue.Task
import ProgramQueue.Text.Blank
import ProgramQueue.Wire.Push

/-!
# The client of the push server

A request to the server is a message that is attempted until it gets through,
fails for good, or has been attempted often enough; between two attempts the
client waits.  How a single attempt ends is up to the network, except that a
message which cannot be sent at all fails before it reaches the network.
-/

namespace ProgramQueue.Push

/-- How a client reaches the server, and as whom. -/
structure ClientConfig where
  /-- The address that the paths of the server are appended to. -/
  baseUrl : String
  apiKey : Option String
  deviceId : Option String
  /-- The login that the requests act on, in base 64. -/
  loginId : Option String
  timeout : Nat
  retry : RetryPolicy
deriving DecidableEq, Repr

structure Message where
  url : String
  headers : List (String × String)
  body : String
deriving DecidableEq, Repr

structure Response where
  code : Nat
  body : String
deriving DecidableEq, Repr

/-- What a client asks of the network. -/
inductive NetworkRequest where
  | attempt (message : Message)
  | pause (ms : Nat)
deriving DecidableEq, Repr

abbrev NetworkRequest.Answer : NetworkRequest → Type
  | attempt _ => Except TransportFailure Response
  | pause _ => Unit

abbrev Network : Interface where
  Request := NetworkRequest
  Answer := NetworkRequest.Answer

namespace Message

/-- A character that a header cannot hold. -/
def isForbiddenInHeader (c : Char) : Bool :=
  (c.toNat < 0x20 && c != '\t') || c.toNat = 0x7F

/-- The place that a message is for, or why it cannot be sent. -/
def address (message : Message) : Except TransportFailure Address :=
  match Address.ofText? message.url with
  | none => .error .badAddress
  | some address =>
      if message.headers.any fun header => header.2.toList.any isForbiddenInHeader then
        .error .badHeader
      else .ok address

end Message

namespace Response

def isSuccess (response : Response) : Bool :=
  200 ≤ response.code && response.code < 300

end Response

/-! ## The client -/

/-- A client whose address is known not to be blank. -/
structure Client where
  config : ClientConfig
  hasAddress : Text.trim config.baseUrl ≠ ""

namespace Client

/-- A client with a configuration. -/
def ofConfig (config : ClientConfig) : Except RequestError Client :=
  if h : Text.trim config.baseUrl ≠ "" then .ok ⟨config, h⟩
  else .error (.config "base_url is empty")

def withoutSlashes (text : String) : String :=
  String.ofList (text.toList.reverse.dropWhile (· = '/')).reverse

def headers (client : Client) : List (String × String) :=
  let named (name : String) (value : Option String) : List (String × String) :=
    (value.map fun value => (name, value)).toList
  ("content-type", "application/json") ::
    (named "x-api-key" client.config.apiKey ++
      named "x-device-id" client.config.deviceId ++
      named "x-login-id" client.config.loginId)

/-- The message with a body to a path of the server. -/
def message (client : Client) (path : String) (body : Json) : Message where
  url := withoutSlashes client.config.baseUrl ++ path
  headers := client.headers
  body := body.compact

/-- What an attempt came to: the body of a success, or the error. -/
def outcome (path : String) :
    Except TransportFailure Response → Except RequestError String
  | .error failure => .error (.http failure)
  | .ok response =>
      if response.isSuccess then .ok response.body
      else .error (.status path response.code response.body)

/-- Attempts a message, with a number for this attempt and so many more
attempts allowed after it. -/
def attemptFrom (policy : RetryPolicy) (path : String) (message : Message)
    (attempt : Nat) : (more : Nat) → Task Network (Except RequestError String)
  | 0 => do
      let answer ← Task.request (I := Network) (.attempt message)
      return outcome path answer
  | more + 1 => do
      let answer ← Task.request (I := Network) (.attempt message)
      match outcome path answer with
      | .ok body => return .ok body
      | .error e =>
          if e.isRetryable then
            Task.request (I := Network) (.pause (policy.delayAfter attempt))
            attemptFrom policy path message (attempt + 1) more
          else return .error e

/-- Sends a body to a path of the server; there is always a first attempt. -/
def post (client : Client) (path : String) (body : Json) :
    Task Network (Except RequestError String) :=
  attemptFrom client.config.retry path (client.message path body) 1
    (client.config.retry.maxAttempts - 1)

/-! ## Requests -/

/-- The value that a body denotes; a blank one stands for the empty value. -/
def parse {α : Type} (path : String) (read : Wire.Reader α) (empty : α)
    (body : String) : Except RequestError α :=
  if Text.trim body = "" then .ok empty
  else
    match (Json.parse? body).bind (read .whole) with
    | some value => .ok value
    | none => .error (.parse path)

def devicePath : String := "/v2/device/update"

def loginUpdatePath : String := "/v2/login/update"

def loginPath : String := "/v2/login"

/-- Registers a device with all the events it is interested in. -/
def updateDevice (client : Client) (update : DeviceUpdate) :
    Task Network (Except RequestError Device) := do
  let body ← client.post devicePath update.toJson
  return body.bind (parse devicePath Device.read ⟨[], [], false, false⟩)

/-- Adds and removes events of a login; the body of the answer is not looked
at. -/
def updateLogin (client : Client) (update : LoginUpdate) :
    Task Network (Except RequestError Unit) := do
  let body ← client.post loginUpdatePath update.toJson
  return body.map fun _ => ()

def loginEvents (client : Client) : Task Network (Except RequestError Login) := do
  let body ← client.post loginPath (.obj [])
  return body.bind (parse loginPath Login.read ⟨[]⟩)

end Client

/-! ## Delivery -/

/-- Answers an attempt: a message that can be sent is delivered. -/
def deliver {σ : Type}
    (send : Address → Message → σ → Except TransportFailure Response × σ)
    (message : Message) (state : σ) : Except TransportFailure Response × σ :=
  match message.address with
  | .error failure => (.error failure, state)
  | .ok address => send address message state

/-- The network over a way to send and a way to wait. -/
def network {σ : Type}
    (send : Address → Message → σ → Except TransportFailure Response × σ)
    (wait : Nat → σ → σ) : World Network σ where
  respond
    | .attempt message, state => deliver send message state
    | .pause ms, state => ((), wait ms state)

end ProgramQueue.Push
