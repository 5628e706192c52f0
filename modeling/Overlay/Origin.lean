import Overlay.Location

/-!
# Origins

An origin is a directory or an archive that supplies resources. It is known by its real path.
-/

namespace Overlay

/-- How an origin stores its resources. -/
inductive OriginKind where
  /-- As files below a directory. -/
  | directory
  /-- As entries of one archive file. -/
  | archive
  deriving DecidableEq, Repr

/-- A place that supplies resources. -/
structure Origin where
  /-- The real path of the origin. -/
  location : Path
  /-- How it stores its resources. -/
  kind : OriginKind
  deriving DecidableEq, Repr

namespace Origin

/-- The origin that a path leads to. Whatever is not a directory counts as an archive. -/
def ofPath (t : FileTree) (p : Path) : Except IoError Origin :=
  match t.realPath p with
  | .error e => .error e
  | .ok location => .ok ⟨location, if t.isDirectory location then .directory else .archive⟩

/-- Where the origin keeps a resource. -/
def locate (o : Origin) (resource : String) : Location :=
  match o.kind with
  | .directory => .file (o.location.join resource)
  | .archive => .entry o.location resource

end Origin

end Overlay
