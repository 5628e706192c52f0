import Overlay.FileTree
import Overlay.Tar

/-!
# Archives

An archive is a tar file, gzipped or not. Its file entries go by normalised names. A scan of the
leading entries stops at the first one outside a prefix and never looks at what follows; an index
holds all entries, a later one replacing an earlier one of the same name.
-/

namespace Overlay

namespace Archive

/-- The contents of the archive file that a path leads to. -/
def contents (t : FileTree) (p : Path) : Except IoError Tar.Contents :=
  (t.read p).map fun bytes => Tar.read (Delivery.ofFile bytes)

/-- A text without all the `./` that it starts with. -/
def dropHere : List Char → List Char
  | '.' :: '/' :: cs => dropHere cs
  | cs => cs

/-- The name of an entry that is stored under a path: slashes for backslashes, without leading
`./`, then without leading slashes. -/
def entryChars (stored : List Char) : List Char :=
  (dropHere (stored.map fun c => if c = '\\' then '/' else c)).dropWhile (· == '/')

/-- The name of an entry that is stored under a path. -/
def entryName (stored : String) : String := String.ofList (entryChars stored.toList)

/-- A file entry: its name and content. -/
abbrev Entry := String × ByteArray

/-- The name of a member as an entry. -/
def memberName (m : Tar.Member) : String := entryName (Text.Utf8.decodeLenient m.name)

/-- The leading file entries under a prefix. Reading stops without failure at the first file entry
that is not under it. -/
def leadingOf (before : String) (complete : Bool) : List Tar.Member → Except IoError (List Entry)
  | [] => if complete then .ok [] else .error .badArchive
  | m :: ms =>
    if !m.isFile then leadingOf before complete ms
    else if !before.toList.isPrefixOf (memberName m).toList then .ok []
    else
      match m.content? with
      | none => .error .badArchive
      | some data => (leadingOf before complete ms).map ((memberName m, data) :: ·)

/-- The leading file entries of an archive under a prefix. -/
def scanLeading (t : FileTree) (p : Path) (before : String) : Except IoError (List Entry) :=
  match contents t p with
  | .error e => .error e
  | .ok c => leadingOf before c.complete c.members

/-- The file entries of an archive that can be read to its end. -/
def entriesOf (complete : Bool) : List Tar.Member → Except IoError (List Entry)
  | [] => if complete then .ok [] else .error .badArchive
  | m :: ms =>
    if !m.isFile then entriesOf complete ms
    else
      match m.content? with
      | none => .error .badArchive
      | some data => (entriesOf complete ms).map ((memberName m, data) :: ·)

variable {before : String} {complete : Bool} {m : Tar.Member} {ms : List Tar.Member}
  {es : List Entry}

/-- A scan takes a file under the prefix and goes on behind it. -/
theorem leadingOf_cons_of_file (hfile : m.isFile = true)
    (hunder : before.toList.isPrefixOf (memberName m).toList = true) :
    leadingOf before complete (m :: ms) = .ok es ↔ ∃ data rest, m.content? = some data ∧
      leadingOf before complete ms = .ok rest ∧ (memberName m, data) :: rest = es := by
  rw [leadingOf, hfile, hunder]
  cases m.content? <;> cases leadingOf before complete ms <;> simp [Except.map]

/-- An index takes every file. -/
theorem entriesOf_cons_of_file (hfile : m.isFile = true) :
    entriesOf complete (m :: ms) = .ok es ↔ ∃ data rest, m.content? = some data ∧
      entriesOf complete ms = .ok rest ∧ (memberName m, data) :: rest = es := by
  rw [entriesOf, hfile]
  cases m.content? <;> cases entriesOf complete ms <;> simp [Except.map]

/-- A scan that succeeds is one of the members of an archive. -/
theorem scanLeading_eq_ok_iff {t : FileTree} {p : Path} :
    scanLeading t p before = .ok es ↔
      ∃ c, contents t p = .ok c ∧ leadingOf before c.complete c.members = .ok es := by
  rw [scanLeading]
  cases contents t p <;> simp

end Archive

/-- An indexed view of an archive. -/
structure ArchiveIndex where
  /-- Where the archive was opened. -/
  path : Path
  /-- The file entries in archive order. -/
  entries : List Archive.Entry
  deriving DecidableEq

namespace ArchiveIndex

/-- Read and index all file entries of the archive that a path leads to. -/
def ofPath (t : FileTree) (p : Path) : Except IoError ArchiveIndex :=
  match Archive.contents t p with
  | .error e => .error e
  | .ok c => (Archive.entriesOf c.complete c.members).map fun es => ⟨p, es⟩

/-- An index has the entries of the members of an archive. -/
theorem ofPath_eq_ok_iff {t : FileTree} {p : Path} {i : ArchiveIndex} :
    ofPath t p = .ok i ↔ ∃ c es, Archive.contents t p = .ok c ∧
      Archive.entriesOf c.complete c.members = .ok es ∧ ⟨p, es⟩ = i := by
  rw [ofPath]
  cases Archive.contents t p with
  | error e => simp
  | ok c =>
    dsimp only
    cases h : Archive.entriesOf c.complete c.members <;> simp [h, Except.map]

/-- The content of an entry: that of the last one with its name. -/
def read? (i : ArchiveIndex) (name : String) : Option ByteArray :=
  (i.entries.reverse.find? (·.1 == name)).map (·.2)

/-- Whether the archive has an entry. -/
def contains (i : ArchiveIndex) (name : String) : Bool := i.entries.any (·.1 == name)

/-- An archive has an entry if the entry has content. -/
theorem isSome_read? (i : ArchiveIndex) (name : String) :
    (i.read? name).isSome = i.contains name := by
  rw [read?, Option.isSome_map, List.isSome_find?, List.any_reverse, contains]

/-- The names of all entries, sorted, each once. -/
def names (i : ArchiveIndex) : List String :=
  ((i.entries.map (·.1)).mergeSort (· ≤ ·)).eraseReps

/-- The names of the entries under a prefix, sorted, each once. -/
def namesUnder (i : ArchiveIndex) (before : String) : List String :=
  i.names.filter fun name => before.toList.isPrefixOf name.toList

/-- The number of entries with different names. -/
def size (i : ArchiveIndex) : Nat := i.names.length

end ArchiveIndex

end Overlay
