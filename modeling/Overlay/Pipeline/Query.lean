import Overlay.Pipeline.Load

/-!
# Resources and definitions without loading

Locations and contents of resources, and the definition that a symbol has or would get. Registered
origins come first and the fallback loader second; nothing is defined.
-/

namespace Overlay.Pipeline

variable {φ β : Type}

/-- The location of a resource. -/
def resource (b : Blueprint φ β) (t : FileTree) (resource : String) (s : Pipeline φ β) :
    Option Location × Pipeline φ β :=
  match s.registry.find? t resource s.lookups with
  | (some l, lookups) => (some l, { s with lookups })
  | (none, lookups) =>
    let (found, s) := { s with lookups }.resolveFallback b t resource
    (found.map (·.location), s)

/-- The content of a resource. -/
def resourceBytes (b : Blueprint φ β) (t : FileTree) (resource : String) (s : Pipeline φ β) :
    Except LoadError (Option ByteArray) × Pipeline φ β :=
  match s.resolveRegistered t resource with
  | (.error e, s) => (.error e, s)
  | (.ok (some (_, found)), s) => (.ok (some found.bytes), s)
  | (.ok none, s) =>
    let (found, s) := s.resolveFallback b t resource
    (.ok (found.map (·.bytes)), s)

/-- All locations of a resource: those in registered origins, or those in the fallback loader if
there are none. -/
def resources (b : Blueprint φ β) (t : FileTree) (resource : String) (s : Pipeline φ β) :
    List Location × Pipeline φ β :=
  match s.registry.findAll t resource s.lookups with
  | ([], lookups) =>
    let (found, fallback) := b.fallback.resolveAll t resource s.fallback
    (found.map (·.location), { s with lookups, fallback })
  | (ls, lookups) => (ls, { s with lookups })

/-- The raw definition of a symbol, from any loader that supplies bytes. -/
def rawBytes (b : Blueprint φ β) (t : FileTree) (name : String) (s : Pipeline φ β) :
    Except LoadError (Option ByteArray) × Pipeline φ β :=
  match s.fetch b t (SymbolName.dotted name) true with
  | (.error e, s) => (.error e, s)
  | (.ok f, s) => (.ok (f.map (·.bytes)), s)

/-- The definition of a symbol, run through the transformer if `transformed`. -/
def symbolBytes (b : Blueprint φ β) (t : FileTree) (name : String) (transformed : Bool)
    (s : Pipeline φ β) : Except LoadError (Option ByteArray) × Pipeline φ β :=
  match s.fetch b t (SymbolName.dotted name) true with
  | (.error e, s) => (.error e, s)
  | (.ok none, s) => (.ok none, s)
  | (.ok (some f), s) =>
    if transformed then
      match s.transform b (SymbolName.dotted name) f.bytes with
      | (.error e, s) => (.error e, s)
      | (.ok bytes, s) => (.ok (some bytes), s)
    else (.ok (some f.bytes), s)

end Overlay.Pipeline
