import Overlay.Pipeline.Query
import Overlay.Precedence

/-!
# Module loaders

A module loader has origins of its own and asks its parent pipeline first. It shares the parent's
tags and descriptors. A symbol that the parent finds is checked for precedence of the module's own
copy; one that the parent does not find is looked for in the module's origins.
-/

namespace Overlay

/-- The state of a module loader. -/
structure ModuleLoader where
  /-- The name of the loader. -/
  name : String
  /-- The module's own origins. -/
  registry : Registry
  /-- The symbols that the module defined. -/
  symbols : Table String Symbol
  /-- The live archive views of the module's origins and its notices. -/
  lookups : LookupState
  deriving DecidableEq

namespace ModuleLoader

variable {φ β : Type}

/-- A module loader without origins. -/
def ofName (name : String) : ModuleLoader := ⟨name, Registry.empty, Table.empty, LookupState.empty⟩

/-- Add an origin to the module's own, tagged as local, unless the module has it already. -/
def addOrigin (t : FileTree) (p : Path) (m : ModuleLoader) (parent : Pipeline φ β) :
    Except LoadError Bool × ModuleLoader × Pipeline φ β :=
  let (result, registry, tags) := m.registry.register t p (some .moduleLocal) parent.tags
  (result, { m with registry }, { parent with tags })

/-- Whether one of the module's origins has a resource. -/
def hasLocal (t : FileTree) (resource : String) (m : ModuleLoader) : Bool × ModuleLoader :=
  let (found, lookups) := m.registry.find? t resource m.lookups
  (found.isSome, { m with lookups })

/-- Keep a symbol unless its name has one, and give the symbol of the name. -/
def keep (symbol : Symbol) (m : ModuleLoader) : Symbol × ModuleLoader :=
  let symbols := m.symbols.insertIfAbsent symbol.name symbol
  ((symbols.get? symbol.name).getD symbol, { m with symbols })

/-- Load a symbol from the module's own origins. -/
def loadLocal (b : Blueprint φ β) (t : FileTree) (name : String) (m : ModuleLoader)
    (parent : Pipeline φ β) : Option Symbol × ModuleLoader × Pipeline φ β :=
  match m.symbols.get? name with
  | some symbol => (some symbol, m, parent)
  | none =>
    match m.registry.resolve? t (SymbolName.resource name b.config.resourceSuffix) m.lookups with
    | (.ok (some (o, found)), lookups) =>
      let (descriptor, parent) := parent.descriptorFor t o.location
      let (symbol, m) :=
        keep ⟨name, found.bytes, some o.location, descriptor, .module m.name⟩ { m with lookups }
      (some symbol, m, parent)
    | (_, lookups) => (none, { m with lookups }, parent)

/-- The module's own origins as a search path beside its parent. -/
def ownLookup (b : Blueprint φ β) (t : FileTree) : LocalLookup (ModuleLoader × Pipeline φ β) where
  has resource s :=
    let (found, m) := s.1.hasLocal t resource
    (found, m, s.2)
  load name s := s.1.loadLocal b t name s.2

/-- Load a dotted name. -/
def loadDotted (b : Blueprint φ β) (t : FileTree) (name : String) (m : ModuleLoader)
    (parent : Pipeline φ β) : Except LoadError Symbol × ModuleLoader × Pipeline φ β :=
  match m.symbols.get? name with
  | some symbol => (.ok symbol, m, parent)
  | none =>
    match parent.load b t name with
    | (.ok candidate, parent) =>
      let (symbol, m, parent) :=
        Precedence.choose b.config parent.tags (ownLookup b t) name candidate (m, parent)
      (.ok symbol, m, parent)
    | (.error e, parent) =>
      if e.isNotFound then
        match m.loadLocal b t name parent with
        | (some symbol, m, parent) => (.ok symbol, m, parent)
        | (none, m, parent) => (.error (.notFound name), m, parent)
      else (.error e, m, parent)

/-- Load a symbol. The name may have slashes for dots. -/
def load (b : Blueprint φ β) (t : FileTree) (name : String) (m : ModuleLoader)
    (parent : Pipeline φ β) : Except LoadError Symbol × ModuleLoader × Pipeline φ β :=
  m.loadDotted b t (SymbolName.dotted name) parent

/-- The location of a resource, the parent's first; none for a reserved one. -/
def resource (b : Blueprint φ β) (t : FileTree) (resource : String) (m : ModuleLoader)
    (parent : Pipeline φ β) : Option Location × ModuleLoader × Pipeline φ β :=
  Precedence.unlessReserved b.config resource (none, m, parent) fun _ =>
    match parent.resource b t resource with
    | (some l, parent) => (some l, m, parent)
    | (none, parent) =>
      let (found, lookups) := m.registry.find? t resource m.lookups
      (found, { m with lookups }, parent)

/-- All locations of a resource, the parent's first; none for a reserved one. -/
def resources (b : Blueprint φ β) (t : FileTree) (resource : String) (m : ModuleLoader)
    (parent : Pipeline φ β) : List Location × ModuleLoader × Pipeline φ β :=
  Precedence.unlessReserved b.config resource ([], m, parent) fun _ =>
    let (found, parent) := parent.resources b t resource
    let (own, lookups) := m.registry.findAll t resource m.lookups
    (found ++ own, { m with lookups }, parent)

end ModuleLoader

end Overlay
