import Overlay.LoadError

/-!
# The journal

Notices of what went wrong without stopping an operation, or in addition to an error, with their
levels and wording.
-/

namespace Overlay

/-- How serious a notice is. -/
inductive Level where
  /-- Something was left out or refused. -/
  | warning
  /-- An operation failed. -/
  | error
  deriving DecidableEq, Repr

/-- The written name of a level. -/
def Level.text : Level → String
  | warning => "WARN"
  | error => "ERROR"

/-- Something worth noting. -/
inductive Notice where
  /-- An archive cannot be read, so a look-up passed over it. -/
  | archiveSkipped (origin : Path) (cause : IoError)
  /-- A descriptor cannot be read, so the origin counts as having none. -/
  | descriptorFailed (location : Path) (cause : IoError)
  /-- A definition was refused because the fallback's copy lies in a registered origin. -/
  | copyShadowed (name : String) (location : Location)
  /-- A delegation was refused because the fallback's copy lies in a registered origin. -/
  | delegateShadowed (name : String) (location : Location)
  /-- A symbol was not found. -/
  | symbolMissing (name : String)
  /-- The transformer refused a symbol. -/
  | transformFailed (name cause : String)
  /-- An extension cannot be registered. -/
  | extensionSkipped (extension : Path) (cause : LoadError)
  /-- A transform configuration is declared again. -/
  | configRepeated (name : String) (origin : Path)
  deriving DecidableEq, Repr

namespace Notice

/-- The level of a notice. -/
def level : Notice → Level
  | transformFailed _ _ => .error
  | _ => .warning

/-- The wording of a notice. -/
def message : Notice → String
  | archiveSkipped origin cause =>
    "Skipping unreadable archive " ++ origin.text ++ ": " ++ cause.message
  | descriptorFailed location cause =>
    "Failed to load descriptor of " ++ location.text ++ ": " ++ cause.message
  | copyShadowed name location =>
    "Fallback copy of " ++ name ++ " at " ++ location.text ++ " is shadowed by a registered origin"
  | delegateShadowed name location =>
    "Symbol " ++ name ++ " is present in the fallback loader but its location " ++ location.text ++
      " is shadowed"
  | symbolMissing name => "Cannot find symbol " ++ name
  | transformFailed name cause => "Transformation of " ++ name ++ " failed: " ++ cause
  | extensionSkipped extension cause =>
    "Skipping extension " ++ extension.text ++ ": " ++ cause.message
  | configRepeated name origin =>
    "Duplicate transform config " ++ name ++ " in " ++ origin.text

end Notice

/-- The notices so far, oldest first. -/
abbrev Journal := List Notice

end Overlay
