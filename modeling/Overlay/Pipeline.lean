import Overlay.Loader.Interface
import Overlay.Metadata
import Overlay.Provenance
import Overlay.Transformer

/-!
# The load pipeline

The state of the layered loader and the single changes that its operations are made of. A pipeline
is built from a blueprint, which never changes: the configuration and the two other loaders. Its
state holds the registered origins, their descriptors, the names that came from the fallback
loader, the transformer, and every symbol that the pipeline defined.
-/

namespace Overlay

/-- What a pipeline is built from. -/
structure Blueprint (φ β : Type) where
  /-- The configuration. -/
  config : Config
  /-- The loader to fall back on. -/
  fallback : FallbackLoader φ
  /-- The platform's loader. -/
  bootstrap : BootstrapLoader β

/-- The state of a pipeline over loaders with states of types `φ` and `β`. -/
structure Pipeline (φ β : Type) where
  /-- The registered origins. -/
  registry : Registry
  /-- The tags of origins. -/
  tags : TagStore
  /-- The descriptors read so far. -/
  metadata : MetadataCache
  /-- The names that came from the fallback loader. -/
  provenance : Provenance
  /-- The installed transformer. -/
  transformer : Option Transformer
  /-- What the transformer was called with, oldest first. -/
  transformed : List Handed
  /-- The symbols that the pipeline defined. -/
  defined : Table String Symbol
  /-- The namespaces of those symbols, each once. -/
  namespaces : List String
  /-- The live archive views and the notices. -/
  lookups : LookupState
  /-- The state of the fallback loader. -/
  fallback : φ
  /-- The state of the bootstrap loader. -/
  bootstrap : β

namespace Pipeline

variable {φ β : Type}

/-- A new pipeline over loaders in the given states. -/
def ofBlueprint (b : Blueprint φ β) (fallback : φ) (bootstrap : β) : Pipeline φ β where
  registry := Registry.empty
  tags := TagStore.empty
  metadata := MetadataCache.ofConfig b.config
  provenance := Provenance.empty
  transformer := none
  transformed := []
  defined := Table.empty
  namespaces := []
  lookups := LookupState.empty
  fallback := fallback
  bootstrap := bootstrap

/-- Register the origin that a path leads to. -/
def registerOrigin (t : FileTree) (p : Path) (tag : Option OriginTag) (s : Pipeline φ β) :
    Except LoadError Bool × Pipeline φ β :=
  let (result, registry, tags) := s.registry.register t p tag s.tags
  (result, { s with registry, tags })

/-- Install the transformer, unless one is installed. -/
def install (tr : Transformer) (s : Pipeline φ β) : Except LoadError Unit × Pipeline φ β :=
  match s.transformer with
  | some _ => (.error .doubleInstall, s)
  | none => (.ok (), { s with transformer := some tr })

/-- Add a notice. -/
def note (n : Notice) (s : Pipeline φ β) : Pipeline φ β := { s with lookups := s.lookups.note n }

/-- Mark a name as one that came from the fallback loader. -/
def mark (name : String) (s : Pipeline φ β) : Pipeline φ β :=
  { s with provenance := s.provenance.mark name }

/-- The descriptor of an origin. -/
def descriptorFor (t : FileTree) (location : Path) (s : Pipeline φ β) :
    Descriptor × Pipeline φ β :=
  let (d, metadata, lookups) := s.metadata.descriptorFor t location s.lookups
  (d, { s with metadata, lookups })

/-- The descriptor of an origin, or the empty one when there is no origin. -/
def describe (t : FileTree) (source : Option Path) (s : Pipeline φ β) :
    Descriptor × Pipeline φ β :=
  match source with
  | some location => s.descriptorFor t location
  | none => (Descriptor.empty, s)

/-- Note the namespace of a name, if it has one. -/
def noteNamespace (name : String) (s : Pipeline φ β) : Pipeline φ β :=
  match SymbolName.namespace? name with
  | none => s
  | some ns => if s.namespaces.contains ns then s else { s with namespaces := ns :: s.namespaces }

/-- Enter a symbol unless its name has one, and give the symbol of the name. -/
def insertSymbol (symbol : Symbol) (s : Pipeline φ β) : Symbol × Pipeline φ β :=
  let defined := s.defined.insertIfAbsent symbol.name symbol
  ((defined.get? symbol.name).getD symbol, { s with defined })

/-- The namespaces of the defined symbols, sorted. -/
def definedNamespaces (s : Pipeline φ β) : List String := s.namespaces.mergeSort (· ≤ ·)

/-- Look up a resource in the registered origins and read it. -/
def resolveRegistered (t : FileTree) (resource : String) (s : Pipeline φ β) :
    Except LoadError (Option Found) × Pipeline φ β :=
  let (result, lookups) := s.registry.resolve? t resource s.lookups
  (result, { s with lookups })

/-- Look up a resource in the fallback loader and read it. -/
def resolveFallback (b : Blueprint φ β) (t : FileTree) (resource : String) (s : Pipeline φ β) :
    Option Resource × Pipeline φ β :=
  let (result, fallback) := b.fallback.resolve t resource s.fallback
  (result, { s with fallback })

/-- Ask the fallback loader for a symbol of its own. -/
def askFallback (b : Blueprint φ β) (t : FileTree) (name : String) (s : Pipeline φ β) :
    Option Symbol × Pipeline φ β :=
  let (result, fallback) := b.fallback.loadSymbol t name s.fallback
  (result, { s with fallback })

/-- Ask the bootstrap loader for a symbol. -/
def askBootstrap (b : Blueprint φ β) (t : FileTree) (name : String) (s : Pipeline φ β) :
    Option Symbol × Pipeline φ β :=
  let (result, bootstrap) := b.bootstrap.loadSymbol t name s.bootstrap
  (result, { s with bootstrap })

end Pipeline

end Overlay
