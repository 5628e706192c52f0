import Overlay.Archive
import Overlay.FileTree.Edit

/-!
# Unpacking

The file tree that holds the file entries of an archive, below the root.
-/

namespace Overlay.FileTree

/-- A file tree without files. -/
def empty : FileTree := ⟨[], []⟩

/-- Write an entry; one that cannot be written, such as a file below a file, is left out. -/
def writeEntry (t : FileTree) (e : Archive.Entry) : FileTree :=
  match t.write ⟨e.1⟩ e.2 with
  | .ok t => t
  | .error _ => t

/-- The file tree of some entries. A later entry takes the place of an earlier one. -/
def ofEntries (es : List Archive.Entry) : FileTree := es.foldl writeEntry empty

/-- The file tree of the archive that some bytes are. -/
def unpack (bytes : ByteArray) : Except IoError FileTree :=
  let c := Tar.read (Delivery.ofFile bytes)
  (Archive.entriesOf c.complete c.members).map ofEntries

end Overlay.FileTree
