import Overlay.Config.File
import Overlay.Origin

/-!
# Loader errors

The reasons for which registering an origin, reading the configuration or loading a symbol fails,
with their wording.
-/

namespace Overlay

/-- Why an operation of the loader failed. -/
inductive LoadError where
  /-- No loader has the symbol. -/
  | notFound (name : String)
  /-- The fallback loader has the symbol only in a place that is a registered origin. -/
  | shadowed (name : String) (location : Location)
  /-- The transformer refused the symbol, with its own message. -/
  | transform (name cause : String)
  /-- A transformer is installed already. -/
  | doubleInstall
  /-- A resource could not be read. -/
  | read (resource : String) (location : Location) (cause : IoError)
  /-- The path of an origin leads nowhere. -/
  | originUnavailable (path : Path) (cause : IoError)
  /-- A configuration file could not be used. -/
  | config (path : Path) (fault : Config.Fault)
  deriving DecidableEq, Repr

namespace LoadError

/-- The wording of an error. -/
def message : LoadError → String
  | notFound name => "Cannot find symbol '" ++ name ++ "'"
  | shadowed name location =>
    "Symbol '" ++ name ++ "' is present in the fallback loader but its location " ++
      location.text ++ " is shadowed by a registered origin"
  | transform name _ => "Transformation of '" ++ name ++ "' failed"
  | doubleInstall => "Transformer is already installed"
  | read resource location _ => "Failed to read '" ++ resource ++ "' from " ++ location.text
  | originUnavailable path _ => "Origin " ++ path.text ++ " is unavailable"
  | config path (.unreadable cause) =>
    "Invalid loader configuration " ++ path.text ++ ": " ++ cause.message
  | config path .malformed => "Invalid loader configuration " ++ path.text

/-- The messages of what caused an error, nearest first. -/
def causes : LoadError → List String
  | transform _ cause => [cause]
  | read _ _ cause => [cause.message]
  | originUnavailable _ cause => [cause.message]
  | _ => []

/-- Whether an error only says that the symbol is not available. -/
def isNotFound : LoadError → Bool
  | notFound _ => true
  | shadowed _ _ => true
  | _ => false

end LoadError

end Overlay
