import Overlay.Location
import Overlay.Symbol

/-!
# Other loaders

The layered loader works on top of two others: the fallback loader, which owned all names before,
and the bootstrap loader of the platform. Each is a record of functions on a state of its own, so
that nothing is assumed about how it answers or what it remembers.
-/

namespace Overlay

/-- A loader with states of type `φ` that the layered loader falls back on. -/
structure FallbackLoader (φ : Type) where
  /-- Find a resource and read it. -/
  resolve : FileTree → String → φ → Option Resource × φ
  /-- Find and read all copies of a resource. -/
  resolveAll : FileTree → String → φ → List Resource × φ
  /-- The loader's own definition of a symbol, if it has one. -/
  loadSymbol : FileTree → String → φ → Option Symbol × φ

namespace FallbackLoader

/-- All copies of a resource for a loader that sees at most one. -/
def single {φ : Type} (resolve : FileTree → String → φ → Option Resource × φ) (t : FileTree)
    (name : String) (f : φ) : List Resource × φ :=
  let (found, f) := resolve t name f
  (found.toList, f)

end FallbackLoader

/-- A loader with states of type `β` for the names of the platform. -/
structure BootstrapLoader (β : Type) where
  /-- The platform's definition of a symbol, if it has one. -/
  loadSymbol : FileTree → String → β → Option Symbol × β

/-- The bootstrap loader without symbols. -/
def BootstrapLoader.none : BootstrapLoader Unit := ⟨fun _ _ s => (Option.none, s)⟩

end Overlay
