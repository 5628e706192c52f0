import Overlay.Loader.Interface
import Overlay.Registry.Lookup
import Overlay.SymbolName

/-!
# Search path loaders

A fallback loader over a fixed list of directories and archives. It defines symbols in a namespace
of its own, untransformed, and keeps each as it was first defined. A resource that cannot be read
counts as absent.
-/

namespace Overlay

/-- The state of a search path loader. -/
structure SearchPath where
  /-- What follows a symbol's path in the name of its resource. -/
  resourceSuffix : String
  /-- The search path. -/
  registry : Registry
  /-- The tags of the search path's origins. -/
  tags : TagStore
  /-- The symbols defined so far. -/
  symbols : Table String Symbol
  /-- The live archive views and the notices. -/
  lookups : LookupState
  deriving DecidableEq

namespace SearchPath

/-- Register the rest of a search path. -/
def register (t : FileTree) : List Path → Registry → TagStore →
    Except LoadError (Registry × TagStore)
  | [], r, tags => .ok (r, tags)
  | p :: ps, r, tags =>
    match r.register t p (some .primary) tags with
    | (.error e, _, _) => .error e
    | (.ok _, r, tags) => register t ps r tags

/-- The loader over a search path, whose paths must all lead somewhere. -/
def ofPaths (t : FileTree) (paths : List Path) (resourceSuffix : String) :
    Except LoadError SearchPath :=
  (register t paths Registry.empty TagStore.empty).map fun (r, tags) =>
    ⟨resourceSuffix, r, tags, Table.empty, LookupState.empty⟩

/-- Find a resource and read it. -/
def resolve (t : FileTree) (name : String) (s : SearchPath) : Option Resource × SearchPath :=
  match s.registry.resolve? t name s.lookups with
  | (.ok found, lookups) => (found.map (·.2), { s with lookups })
  | (.error _, lookups) => (none, { s with lookups })

/-- Find and read all copies of a resource. -/
def resolveAll (t : FileTree) (name : String) (s : SearchPath) : List Resource × SearchPath :=
  match s.registry.resolveAll t name s.lookups with
  | (.ok found, lookups) => (found.map (·.2), { s with lookups })
  | (.error _, lookups) => ([], { s with lookups })

/-- Keep a symbol unless its name has one, and give the symbol of the name. -/
def keep (symbol : Symbol) (s : SearchPath) : Symbol × SearchPath :=
  let symbols := s.symbols.insertIfAbsent symbol.name symbol
  ((symbols.get? symbol.name).getD symbol, { s with symbols })

/-- The loader's definition of a symbol. -/
def loadSymbol (t : FileTree) (name : String) (s : SearchPath) : Option Symbol × SearchPath :=
  match s.symbols.get? name with
  | some symbol => (some symbol, s)
  | none =>
    match s.registry.resolve? t (SymbolName.resource name s.resourceSuffix) s.lookups with
    | (.ok (some (o, found)), lookups) =>
      let (symbol, s) := keep ⟨name, found.bytes, some o.location, Descriptor.empty, .fallback⟩
        { s with lookups }
      (some symbol, s)
    | (_, lookups) => (none, { s with lookups })

/-- The fallback loader over a search path. -/
def loader : FallbackLoader SearchPath := ⟨resolve, resolveAll, loadSymbol⟩

end SearchPath

end Overlay
