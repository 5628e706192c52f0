import Overlay.Loader.Interface
import Overlay.Table

/-!
# Memory loaders

Loaders that answer from tables in memory and record what they were asked for.
-/

namespace Overlay

/-- A question to a loader. -/
inductive Query where
  /-- For a resource. -/
  | resource (name : String)
  /-- For a symbol. -/
  | symbol (name : String)
  deriving DecidableEq, Repr

/-- The state of a loader that answers from memory. -/
structure Memory where
  /-- The resources it has, by name. -/
  resources : Table String Resource
  /-- The symbols it has, by name. -/
  symbols : Table String Symbol
  /-- What it was asked for, oldest first. -/
  queries : List Query
  deriving DecidableEq

namespace Memory

/-- The memory without resources and symbols. -/
def empty : Memory := ⟨Table.empty, Table.empty, []⟩

/-- Add a resource, replacing the one of that name. -/
def addResource (m : Memory) (name : String) (r : Resource) : Memory :=
  { m with resources := m.resources.insert name r }

/-- Add a symbol, replacing the one of that name. -/
def addSymbol (m : Memory) (s : Symbol) : Memory :=
  { m with symbols := m.symbols.insert s.name s }

/-- Record a question. -/
def record (m : Memory) (q : Query) : Memory := { m with queries := m.queries ++ [q] }

/-- Forget the recorded questions. -/
def forget (m : Memory) : Memory := { m with queries := [] }

/-- Answer with a resource. -/
def resolve (_ : FileTree) (name : String) (m : Memory) : Option Resource × Memory :=
  (m.resources.get? name, m.record (.resource name))

/-- Answer with a symbol. -/
def loadSymbol (_ : FileTree) (name : String) (m : Memory) : Option Symbol × Memory :=
  (m.symbols.get? name, m.record (.symbol name))

/-- The fallback loader that answers from memory. -/
def loader : FallbackLoader Memory := ⟨resolve, FallbackLoader.single resolve, loadSymbol⟩

/-- The bootstrap loader that answers from memory. -/
def bootstrapLoader : BootstrapLoader Memory := ⟨loadSymbol⟩

end Memory

end Overlay
