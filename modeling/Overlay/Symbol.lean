import Overlay.Descriptor
import Overlay.Path
import Overlay.Text.Utf8

/-!
# Symbols

A symbol is a named definition with the origin it came from and the loader that defined it.
-/

namespace Overlay

/-- The loader that defined a symbol. -/
inductive DefinedBy where
  /-- The layered loader, from a registered origin. -/
  | layered
  /-- The layered loader, from the fallback loader's bytes. -/
  | layeredFromFallback
  /-- The fallback loader. -/
  | fallback
  /-- The bootstrap loader. -/
  | bootstrap
  /-- A module loader, by its name. -/
  | module (name : String)
  deriving DecidableEq, Repr

/-- The written name of a loader. -/
def DefinedBy.text : DefinedBy → String
  | layered => "Layered"
  | layeredFromFallback => "LayeredFromFallback"
  | fallback => "Fallback"
  | bootstrap => "Bootstrap"
  | module name => "Module:" ++ name

/-- A definition. -/
structure Symbol where
  /-- The dotted name. -/
  name : String
  /-- The definition, transformed if it was. -/
  bytes : ByteArray
  /-- The location of the origin it came from. -/
  codeSource : Option Path
  /-- The descriptor of that origin. -/
  descriptor : Descriptor
  /-- The loader that defined it. -/
  definedBy : DefinedBy
  deriving DecidableEq

end Overlay
