import Overlay.Pipeline

/-!
# Loading symbols

A name that is defined keeps its symbol. Support names go to the fallback loader and bootstrap
names to the bootstrap loader. Any other name is defined from a registered origin, or from the
fallback loader's bytes if that is allowed; a name that cannot be defined so is delegated to the
fallback loader. A copy in the fallback loader that lies in a registered origin is refused.
-/

namespace Overlay

/-- A raw definition. -/
structure Fetched where
  /-- The content. -/
  bytes : ByteArray
  /-- The location of the origin it came from. -/
  codeSource : Option Path
  /-- Whether the fallback loader supplied it. -/
  viaFallback : Bool
  deriving DecidableEq

namespace Pipeline

variable {φ β : Type}

/-- The symbol that a loader answered with, or the error that there is none, which leaves a notice
if the configuration asks for it. -/
def orMissing (b : Blueprint φ β) (name : String) :
    Option Symbol × Pipeline φ β → Except LoadError Symbol × Pipeline φ β
  | (some symbol, s) => (.ok symbol, s)
  | (none, s) =>
    (.error (.notFound name), if b.config.debugLookups then s.note (.symbolMissing name) else s)

/-- The raw definition of a name in the fallback loader, unless it lies in a registered origin. -/
def fetchFallback (b : Blueprint φ β) (t : FileTree) (name : String) (s : Pipeline φ β) :
    Except LoadError (Option Fetched) × Pipeline φ β :=
  let resource := SymbolName.resource name b.config.resourceSuffix
  match s.resolveFallback b t resource with
  | (none, s) => (.ok none, s)
  | (some found, s) =>
    if s.registry.isShadowed t found.location resource then
      (.error (.shadowed name found.location), s.note (.copyShadowed name found.location))
    else (.ok (some ⟨found.bytes, found.location.codeSource? t resource, true⟩), s)

/-- The raw definition of a name: from the first registered origin that has it, else, if
`allowed`, from the fallback loader. -/
def fetch (b : Blueprint φ β) (t : FileTree) (name : String) (allowed : Bool)
    (s : Pipeline φ β) : Except LoadError (Option Fetched) × Pipeline φ β :=
  match s.resolveRegistered t (SymbolName.resource name b.config.resourceSuffix) with
  | (.error e, s) => (.error e, s)
  | (.ok (some (o, found)), s) => (.ok (some ⟨found.bytes, some o.location, false⟩), s)
  | (.ok none, s) => if allowed then s.fetchFallback b t name else (.ok none, s)

/-- Run the installed transformer on a raw definition, unless the name is excluded. -/
def transform (b : Blueprint φ β) (name : String) (bytes : ByteArray) (s : Pipeline φ β) :
    Except LoadError ByteArray × Pipeline φ β :=
  match s.transformer with
  | none => (.ok bytes, s)
  | some tr =>
    if b.config.canTransform name then
      let answer := tr.run s.transformed name bytes
      let s := { s with transformed := s.transformed ++ [(name, bytes)] }
      match answer with
      | .ok bytes => (.ok bytes, s)
      | .error cause => (.error (.transform name cause), s.note (.transformFailed name cause))
    else (.ok bytes, s)

/-- Mark the name of a definition that the fallback loader supplied. -/
def markFetched (name : String) (f : Fetched) (s : Pipeline φ β) : Pipeline φ β :=
  if f.viaFallback then s.mark name else s

/-- Define a fetched and transformed symbol. -/
def define (t : FileTree) (name : String) (f : Fetched) (bytes : ByteArray) (s : Pipeline φ β) :
    Symbol × Pipeline φ β :=
  let (descriptor, s) := (s.markFetched name f).describe t f.codeSource
  (s.noteNamespace name).insertSymbol
    { name, bytes, codeSource := f.codeSource, descriptor,
      definedBy := if f.viaFallback then .layeredFromFallback else .layered }

/-- Define a name from a registered origin or from the fallback loader's bytes. The latter must be
asked for or follow from the provenance of the name. -/
def tryDefine (b : Blueprint φ β) (t : FileTree) (name : String) (allowed : Bool)
    (s : Pipeline φ β) : Except LoadError (Option Symbol) × Pipeline φ β :=
  match s.fetch b t name (allowed || s.provenance.isFallbackSourced name) with
  | (.error e, s) => (.error e, s)
  | (.ok none, s) => (.ok none, s)
  | (.ok (some f), s) =>
    match s.transform b name f.bytes with
    | (.error e, s) => (.error e, s)
    | (.ok bytes, s) =>
      let (symbol, s) := s.define t name f bytes
      (.ok (some symbol), s)

/-- Hand a name over to the fallback loader, unless its copy lies in a registered origin; a name
that the fallback loader has no resource for goes to the bootstrap loader. -/
def delegate (b : Blueprint φ β) (t : FileTree) (name : String) (s : Pipeline φ β) :
    Except LoadError Symbol × Pipeline φ β :=
  let resource := SymbolName.resource name b.config.resourceSuffix
  match s.resolveFallback b t resource with
  | (none, s) => orMissing b name (s.askBootstrap b t name)
  | (some found, s) =>
    if s.registry.isShadowed t found.location resource then
      (.error (.shadowed name found.location), s.note (.delegateShadowed name found.location))
    else orMissing b name (s.askFallback b t name)

/-- Load a dotted name, with or without leave to define it from the fallback loader's bytes. -/
def loadDotted (b : Blueprint φ β) (t : FileTree) (name : String) (allowed : Bool)
    (s : Pipeline φ β) : Except LoadError Symbol × Pipeline φ β :=
  match s.defined.get? name with
  | some symbol => (.ok symbol, s)
  | none =>
    if b.config.isSupport name then orMissing b name (s.askFallback b t name)
    else if b.config.isBootstrap name then orMissing b name (s.askBootstrap b t name)
    else
      match s.tryDefine b t name allowed with
      | (.error e, s) => (.error e, s)
      | (.ok (some symbol), s) => (.ok symbol, s)
      | (.ok none, s) => s.delegate b t name

/-- Load a symbol. The name may have slashes for dots. -/
def load (b : Blueprint φ β) (t : FileTree) (name : String) (s : Pipeline φ β) :
    Except LoadError Symbol × Pipeline φ β :=
  s.loadDotted b t (SymbolName.dotted name) false

/-- Load a symbol, defining it from the fallback loader's bytes if no registered origin has it. -/
def loadWithFallback (b : Blueprint φ β) (t : FileTree) (name : String) (s : Pipeline φ β) :
    Except LoadError Symbol × Pipeline φ β :=
  s.loadDotted b t (SymbolName.dotted name) true

/-- Whether the pipeline has defined a symbol. -/
def isLoaded (name : String) (s : Pipeline φ β) : Bool :=
  s.defined.contains (SymbolName.dotted name)

end Pipeline

end Overlay
