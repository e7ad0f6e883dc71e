import ProgramQueue.Config.Section
import ProgramQueue.Location
import ProgramQueue.Push.Client
import ProgramQueue.Queue
import ProgramQueue.Yaml.Printer
import ProgramQueue.Yaml.Reader

/-!
# The configuration

The configuration says where programs are stored, how far they are run at a
time, how the push server is reached and as which device.  It is kept in a file
that need not mention anything: every setting has a value of its own.
-/

namespace ProgramQueue

namespace Config

/-- How the push server is reached. -/
structure Server where
  baseUrl : String
  apiKey : Option String
  /-- The longest time for one attempt, in seconds. -/
  requestTimeout : Nat
  retry : Push.RetryPolicy
deriving DecidableEq, Repr

structure Device where
  deviceId : String
  deviceToken : String
  /-- Logins in base 64. -/
  rootLoginIds : List String
deriving DecidableEq, Repr

structure Notification where
  title : String
  body : String
deriving DecidableEq, Repr

end Config

structure Config where
  version : Nat
  /-- The file of the store, as seen from the root. -/
  storeFile : String
  /-- The most advances in one run. -/
  maxSteps : Nat
  /-- The longest delay, in milliseconds, that is waited out on the spot. -/
  maxInlineDelay : Nat
  /-- After so many seconds a claim counts as abandoned. -/
  lockTtl : Nat
  server : Config.Server
  device : Config.Device
  notification : Config.Notification
  /-- The plugin of each wallet, for tools without a wallet engine. -/
  wallets : Table String
deriving DecidableEq

namespace Config

/-! ## The file -/

/-- The folder of the queue below the root. -/
def folder : String := ".aq"

/-- The file of the configuration below the root. -/
def file : String := ".aq/config.yaml"

/-- The usual file of the store below the root. -/
def usualStoreFile : String := ".aq/queue.db"

def word32 : Nat := Nat.pow 2 32

def word64 : Nat := Nat.pow 2 64

def retrySection : Section (Nat × Nat × Nat × Double × Unit) :=
  .cons (.natBelow word32 "max_attempts" 3) <|
  .cons (.natBelow word64 "initial_delay_ms" 250) <|
  .cons (.natBelow word64 "max_delay_ms" 5000) <|
  .cons (.double "backoff_multiplier" (.ofNat 2)) .nil

def serverSection :
    Section (String × Option String × Nat × (Nat × Nat × Nat × Double × Unit) ×
      Unit) :=
  .cons (.text "base_url" "https://push.example.invalid") <|
  .cons (.optionalText "api_key") <|
  .cons (.natBelow word64 "request_timeout_secs" 10) <|
  .cons (retrySection.setting "retry") .nil

def deviceSection : Section (String × String × List String × Unit) :=
  .cons (.text "device_id" "") <|
  .cons (.text "device_token" "") <|
  .cons (.texts "root_login_ids") .nil

def notificationSection : Section (String × String × Unit) :=
  .cons (.text "title" "Action complete") <|
  .cons (.text "body" "Open the app to continue") .nil

/-- The values of all settings. -/
abbrev Values : Type :=
  Nat × String × Nat × Nat × Nat ×
    (String × Option String × Nat × (Nat × Nat × Nat × Double × Unit) × Unit) ×
    (String × String × List String × Unit) × (String × String × Unit) ×
    Table String × Unit

def whole : Section Values :=
  .cons (.natBelow word32 "version" 1) <|
  .cons (.text "store_path" usualStoreFile) <|
  .cons (.natBelow word64 "max_steps" 64) <|
  .cons (.natBelow word64 "max_inline_delay_ms" 5000) <|
  .cons (.natBelow word64 "lock_ttl_secs" 300) <|
  .cons (serverSection.setting "push") <|
  .cons (deviceSection.setting "device") <|
  .cons (notificationSection.setting "notification") <|
  .cons (.table "wallets") .nil

def values (config : Config) : Values :=
  let retry := config.server.retry
  (config.version, config.storeFile, config.maxSteps, config.maxInlineDelay,
    config.lockTtl,
    (config.server.baseUrl, config.server.apiKey, config.server.requestTimeout,
      (retry.maxAttempts, retry.initialDelay, retry.maxDelay, retry.multiplier, ()),
      ()),
    (config.device.deviceId, config.device.deviceToken, config.device.rootLoginIds,
      ()),
    (config.notification.title, config.notification.body, ()), config.wallets, ())

def ofValues : Values → Config
  | (version, storeFile, maxSteps, maxInlineDelay, lockTtl,
      (baseUrl, apiKey, requestTimeout,
        (maxAttempts, initialDelay, maxDelay, multiplier, ()), ()),
      (deviceId, deviceToken, rootLoginIds, ()), (title, body, ()), wallets, ()) =>
      { version, storeFile, maxSteps, maxInlineDelay, lockTtl
        server :=
          { baseUrl, apiKey, requestTimeout
            retry := { maxAttempts, initialDelay, maxDelay, multiplier } }
        device := { deviceId, deviceToken, rootLoginIds }
        notification := { title, body }
        wallets }

/-- The configuration in which nothing is set. -/
def usual : Config := ofValues whole.defaults

/-- The configuration that the text of a file denotes. -/
def parse? (text : String) : Option Config :=
  ((Yaml.parse? text).bind whole.read).map ofValues

def print (config : Config) : String :=
  (Yaml.map (whole.yamlEntries config.values)).print

def toJson (config : Config) : Json := .obj (whole.jsonMembers config.values)

/-- The configuration in a file, given its text if there is such a file. -/
def load : Option String → Except Error Config
  | none => .error .notInitialized
  | some text =>
      match parse? text with
      | none => .error (.yaml "malformed configuration")
      | some config => .ok config

/-- The configuration with another multiplier between attempts. -/
def withMultiplier (config : Config) (multiplier : Double) : Config :=
  let retry := { config.server.retry with multiplier }
  { config with server := { config.server with retry } }

/-- Two configurations set everything to the same; a multiplier that is no
number is the same as none. -/
def same (a b : Config) : Bool :=
  a.server.retry.multiplier.same b.server.retry.multiplier &&
    decide (a.withMultiplier .one = b.withMultiplier .one)

/-! ## What the settings mean -/

/-- The file of the store, given the root. -/
def storeLocation (config : Config) (root : String) : String :=
  Location.join root config.storeFile

/-- The text of a notification. -/
def pushMessage (config : Config) : String :=
  config.notification.title ++ ": " ++ config.notification.body

/-- How a queue with a name runs programs. -/
def settings (config : Config) (owner : String) : Settings where
  owner := owner
  maxSteps := config.maxSteps
  lockTtl := config.lockTtl
  pushMessage := some config.pushMessage
  inlineCap := config.maxInlineDelay

/-- How the push server is reached; the first login is the one acted on. -/
def clientConfig (config : Config) : Push.ClientConfig where
  baseUrl := config.server.baseUrl
  apiKey := config.server.apiKey
  deviceId := if config.device.deviceId.isEmpty then none else some config.device.deviceId
  loginId := config.device.rootLoginIds.head?
  timeout := config.server.requestTimeout
  retry := config.server.retry

/-- The bytes of login ids; the first that is malformed is named. -/
def decodeLoginIds : List String → Except Error (List (List UInt8))
  | [] => .ok []
  | id :: rest =>
      match Push.decodeLoginId? id with
      | none => .error (.config s!"root login id '{id}' is not base64")
      | some raw => (decodeLoginIds rest).map (raw :: ·)

/-- What the device is registered with; nothing if it has no token. -/
def deviceIdentity (config : Config) : Except Error (Option DeviceIdentity) :=
  if config.device.deviceToken.isEmpty then .ok none
  else
    (decodeLoginIds config.device.rootLoginIds).map fun ids =>
      some ⟨config.device.deviceToken, ids⟩

/-! ## Mistakes -/

/-- A likely mistake in a configuration. -/
inductive Finding where
  | blankBaseUrl
  | noAttempts
  | noSteps
  | malformedLoginId (id : String)
  | tokenWithoutLogins
deriving DecidableEq, Repr

namespace Finding

def isError : Finding → Bool
  | blankBaseUrl => true
  | noAttempts => false
  | noSteps => true
  | malformedLoginId _ => true
  | tokenWithoutLogins => false

def level (finding : Finding) : String := if finding.isError then "error" else "warning"

def message : Finding → String
  | blankBaseUrl => "push.base_url is empty"
  | noAttempts => "push.retry.max_attempts is 0; requests are still tried once"
  | noSteps => "max_steps is 0; programs would never advance"
  | malformedLoginId id => s!"device.root_login_ids entry '{id}' is not base64"
  | tokenWithoutLogins =>
      "device.device_token is set but device.root_login_ids is empty"

def toJson (finding : Finding) : Json :=
  .obj [("level", .str finding.level), ("message", .str finding.message)]

end Finding

/-- All mistakes that can be seen in a configuration. -/
def validate (config : Config) : List Finding :=
  let ids := config.device.rootLoginIds
  let malformed := ids.filter fun id => (Push.decodeLoginId? id).isNone
  (if Text.trim config.server.baseUrl = "" then [.blankBaseUrl] else []) ++
    (if config.server.retry.maxAttempts = 0 then [.noAttempts] else []) ++
    (if config.maxSteps = 0 then [.noSteps] else []) ++
    malformed.map .malformedLoginId ++
    (if !config.device.deviceToken.isEmpty && ids.isEmpty then [.tokenWithoutLogins]
      else [])

end Config

end ProgramQueue
