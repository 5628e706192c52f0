import Overlay.Archive
import Overlay.Table

/-!
# Live archive views

The archive table keeps at most one indexed view per archive, so that repeated look-ups share it.
A view that has entered the table stays as it is, whatever happens to the file. Opening is a
look-up, an indexing of the file and an insertion if no view is there yet; acquiring only looks up
and indexes.
-/

namespace Overlay

/-- The live views, by path. -/
structure ArchiveTable where
  /-- The views, by the components of the paths they were opened at. -/
  views : Table PathKey ArchiveIndex
  deriving DecidableEq

/-- A view for one look-up. -/
structure AcquiredView where
  /-- The view. -/
  index : ArchiveIndex
  /-- Whether it was made for this look-up alone. -/
  owned : Bool

namespace ArchiveTable

/-- The table without views. -/
def empty : ArchiveTable := ⟨Table.empty⟩

/-- The live view of an archive. -/
def get? (a : ArchiveTable) (p : Path) : Option ArchiveIndex := a.views.get? p.components

/-- Enter a view unless one is live. -/
def insertIfAbsent (a : ArchiveTable) (p : Path) (i : ArchiveIndex) : ArchiveTable :=
  ⟨a.views.insertIfAbsent p.components i⟩

/-- The number of live views. -/
def size (a : ArchiveTable) : Nat := a.views.size

/-- The live view of an archive, which is indexed and entered if there is none. -/
def openView (t : FileTree) (p : Path) (a : ArchiveTable) :
    Except IoError ArchiveIndex × ArchiveTable :=
  match a.get? p with
  | some i => (.ok i, a)
  | none =>
    match ArchiveIndex.ofPath t p with
    | .error e => (.error e, a)
    | .ok i =>
      let a := a.insertIfAbsent p i
      (.ok ((a.get? p).getD i), a)

/-- The live view of an archive, or one made for this look-up alone. -/
def acquire (t : FileTree) (p : Path) (a : ArchiveTable) : Except IoError AcquiredView :=
  match a.get? p with
  | some i => .ok ⟨i, false⟩
  | none => (ArchiveIndex.ofPath t p).map fun i => ⟨i, true⟩

end ArchiveTable

end Overlay
