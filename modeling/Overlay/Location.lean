import Overlay.FileTree

/-!
# Resource locations

Where a resource was found: in a file, in an entry of an archive, or at some other address. The
code source of a resource is the directory or archive that holds it. For a file it is found by
going up one step for each part of the resource's name.
-/

namespace Overlay

/-- Where a resource was found. -/
inductive Location where
  /-- A file. -/
  | file (path : Path)
  /-- An entry of an archive. -/
  | entry (archive : Path) (name : String)
  /-- Any other address. -/
  | address (url : String)
  deriving DecidableEq, Repr

/-- A resource and where it was read. -/
structure Resource where
  /-- Where the content was found. -/
  location : Location
  /-- The content. -/
  bytes : ByteArray
  deriving DecidableEq

namespace Location

/-- The written form of a location. -/
def text : Location → String
  | file path => "file://" ++ path.text
  | entry archive name => "archive:file://" ++ archive.text ++ "!/" ++ name
  | address url => url

/-- The number of parts of a resource name: its non-empty stretches between slashes. -/
def depth (resource : String) : Nat :=
  ((Text.pieces (· == '/') resource.toList).filter (· != [])).length

/-- The directory or archive that holds a resource found here, as it is written. -/
def holder? : Location → String → Option Path
  | file path, resource => path.ancestor? (depth resource)
  | entry archive _, _ => some archive
  | address _, _ => none

/-- The directory or archive that holds a resource found here, by its real path if it exists. -/
def codeSource? (t : FileTree) (l : Location) (resource : String) : Option Path :=
  (l.holder? resource).map fun source =>
    match t.realPath source with
    | .ok path => path
    | .error _ => source

end Location

end Overlay
