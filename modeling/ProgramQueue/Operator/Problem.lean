import ProgramQueue.Error

/-!
# Why a command fails

A problem says what the tool was about to do when an error stopped it, as far as
the error alone would not tell.
-/

namespace ProgramQueue.Operator

/-- Why a command failed. -/
inductive Problem where
  /-- The configuration cannot be loaded. -/
  | loading (error : Error)
  /-- The store cannot be opened. -/
  | opening (location : String) (error : Error)
  /-- The push server cannot be addressed. -/
  | client (error : Push.RequestError)
  /-- The folder of the queue cannot be made. -/
  | folder (location : String) (error : Error)
  /-- The configuration cannot be written. -/
  | writing (error : Error)
  /-- The device cannot be identified. -/
  | device (error : Error)
  | noDeviceToken
  /-- The configuration has mistakes that are errors. -/
  | mistakes
  | refused (error : Error)
deriving DecidableEq, Repr

namespace Problem

def message : Problem → String
  | loading error => s!"failed to load config: {error.message}"
  | opening location error => s!"failed to open {location}: {error.message}"
  | client error => s!"failed to build push client: {error.message}"
  | folder location error => s!"failed to create {location}: {error.message}"
  | writing error => s!"failed to write config.yaml: {error.message}"
  | device error => s!"invalid device config: {error.message}"
  | noDeviceToken => "device.device_token is not configured"
  | mistakes => "config validation found errors"
  | refused error => error.message

end Problem

end ProgramQueue.Operator
