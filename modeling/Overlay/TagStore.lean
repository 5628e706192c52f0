import Overlay.OriginTag
import Overlay.Path
import Overlay.Table

/-!
# The tag store

The tags of origins, by location. Loaders that work together share one store.
-/

namespace Overlay

/-- The tags, by the components of the tagged locations. -/
structure TagStore where
  /-- The stored tags. -/
  tags : Table PathKey OriginTag
  deriving DecidableEq

namespace TagStore

/-- The store without tags. -/
def empty : TagStore := ⟨Table.empty⟩

/-- The tag of a location. -/
def get? (s : TagStore) (location : Path) : Option OriginTag := s.tags.get? location.components

/-- Give a location a tag, replacing the one it has. -/
def put (s : TagStore) (location : Path) (tag : OriginTag) : TagStore :=
  ⟨s.tags.insert location.components tag⟩

/-- The number of tagged locations. -/
def size (s : TagStore) : Nat := s.tags.size

/-- A new tag is that of the locations with the same components. -/
theorem get?_put (s : TagStore) (location p : Path) (tag : OriginTag) :
    (s.put location tag).get? p =
      if p.components = location.components then some tag else s.get? p := Table.get?_insert ..

end TagStore

end Overlay
