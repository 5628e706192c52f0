import Overlay.LoadError
import Overlay.TagStore

/-!
# The origin registry

Origins are registered once each and keep their order. Registering first finds the origin that a
path leads to and then inserts it; inserting an origin whose location is a member changes nothing,
and a tag is stored only with the first registration.
-/

namespace Overlay

/-- The registered origins. -/
structure Registry where
  /-- The origins in the order of their registration. -/
  order : List Origin
  /-- The components of their locations. -/
  members : List PathKey
  deriving DecidableEq

namespace Registry

/-- The registry without origins. -/
def empty : Registry := ⟨[], []⟩

/-- Whether a location is registered. -/
def contains (r : Registry) (location : Path) : Bool := r.members.contains location.components

/-- The number of origins. -/
def size (r : Registry) : Nat := r.order.length

/-- Add an origin at the end. -/
def append (r : Registry) (o : Origin) : Registry :=
  ⟨r.order ++ [o], o.location.components :: r.members⟩

/-- Insert an origin and store its tag, unless its location is registered. Gives whether it was
inserted. -/
def insert (o : Origin) (tag : Option OriginTag) (r : Registry) (tags : TagStore) :
    Bool × Registry × TagStore :=
  if r.contains o.location then (false, r, tags)
  else
    match tag with
    | some tag => (true, r.append o, tags.put o.location tag)
    | none => (true, r.append o, tags)

/-- The origin that a path leads to, for registration. -/
def originAt (t : FileTree) (p : Path) : Except LoadError Origin :=
  match Origin.ofPath t p with
  | .ok o => .ok o
  | .error e => .error (.originUnavailable p e)

/-- Register the origin that a path leads to. -/
def register (t : FileTree) (p : Path) (tag : Option OriginTag) (r : Registry) (tags : TagStore) :
    Except LoadError Bool × Registry × TagStore :=
  match originAt t p with
  | .error e => (.error e, r, tags)
  | .ok o =>
    let (new, r, tags) := insert o tag r tags
    (.ok new, r, tags)

/-- Whether a resource that was found outside the registry belongs to a registered origin. -/
def isShadowed (t : FileTree) (r : Registry) (l : Location) (resource : String) : Bool :=
  match l.codeSource? t resource with
  | some source => r.contains source
  | none => false

end Registry

end Overlay
