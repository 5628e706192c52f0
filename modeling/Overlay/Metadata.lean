import Overlay.Descriptor
import Overlay.Registry.Lookup

/-!
# Descriptors of origins

The descriptor of an origin is read when it is first asked for and kept from then on, also when it
could not be read. In a directory it is a text file. In an archive it is looked for in the leading
entries first, together with the signing entries beside it, and in the whole archive if it is not
among them.
-/

namespace Overlay

/-- Where descriptors and signing entries are found, and the descriptors read so far. -/
structure MetadataCache where
  /-- Where an origin keeps its descriptor. -/
  descriptorPath : String
  /-- What the names of signing entries end with. -/
  signerSuffix : String
  /-- The descriptors, by the components of the origins' locations. -/
  descriptors : Table PathKey Descriptor
  deriving DecidableEq

namespace MetadataCache

/-- The cache without descriptors, for a configuration. -/
def ofConfig (c : Config) : MetadataCache := ⟨c.descriptorPath, c.signerSuffix, Table.empty⟩

/-- The prefix of the entries beside the descriptor: its path up to the last slash. -/
def directoryPrefix (m : MetadataCache) : String :=
  match Text.beforeLast '/' m.descriptorPath.toList with
  | some chars => String.ofList (chars ++ ['/'])
  | none => ""

/-- Whether a name is that of a signing entry. -/
def isSigner (m : MetadataCache) (name : String) : Bool :=
  m.signerSuffix.toList.isSuffixOf name.toList

/-- The identity in a signing entry. -/
def identity (data : ByteArray) : String := Text.trimmed (Text.Utf8.decodeLenient data)

/-- The descriptor of a directory; a directory without a descriptor file has the empty one. -/
def ofDirectory (t : FileTree) (m : MetadataCache) (directory : Path) :
    Except IoError Descriptor :=
  let path := directory.join m.descriptorPath
  if t.isFile path then (t.readText path).map Descriptor.parse else .ok Descriptor.empty

/-- The descriptor entry among leading entries; the last one counts. -/
def leadingDescriptor? (m : MetadataCache) (leading : List Archive.Entry) : Option ByteArray :=
  (leading.reverse.find? (·.1 == m.descriptorPath)).map (·.2)

/-- The identities in the signing entries among leading entries. -/
def leadingSigners (m : MetadataCache) (leading : List Archive.Entry) : List String :=
  (leading.filter fun e => e.1 != m.descriptorPath && m.isSigner e.1).map fun e => identity e.2

/-- The identities in the signing entries beside the descriptor of an indexed archive, sorted by
entry name. -/
def indexedSigners (m : MetadataCache) (i : ArchiveIndex) : List String :=
  (((i.namesUnder m.directoryPrefix).filter m.isSigner).filterMap i.read?).map identity

/-- The descriptor of an indexed archive, given the signers among its leading entries. -/
def ofIndex (m : MetadataCache) (i : ArchiveIndex) (signers : List String) : Descriptor :=
  match i.read? m.descriptorPath with
  | none => Descriptor.empty.withSigners signers
  | some data =>
    (Descriptor.parse (Text.Utf8.decodeLenient data)).withSigners
      (if signers = [] then m.indexedSigners i else signers)

/-- The descriptor of an archive. -/
def ofArchive (t : FileTree) (m : MetadataCache) (archives : ArchiveTable) (archive : Path) :
    Except IoError Descriptor :=
  match Archive.scanLeading t archive m.directoryPrefix with
  | .error e => .error e
  | .ok leading =>
    match m.leadingDescriptor? leading with
    | some data =>
      .ok ((Descriptor.parse (Text.Utf8.decodeLenient data)).withSigners (m.leadingSigners leading))
    | none => (archives.acquire t archive).map fun v => m.ofIndex v.index (m.leadingSigners leading)

/-- Read the descriptor of an origin. -/
def compute (t : FileTree) (m : MetadataCache) (archives : ArchiveTable) (location : Path) :
    Except IoError Descriptor :=
  if t.isDirectory location then m.ofDirectory t location else m.ofArchive t archives location

/-- The descriptor that is kept for an origin. -/
def get? (m : MetadataCache) (location : Path) : Option Descriptor :=
  m.descriptors.get? location.components

/-- Whether a descriptor is kept for an origin. -/
def isCached (m : MetadataCache) (location : Path) : Bool := (m.get? location).isSome

/-- Keep a descriptor for an origin. -/
def keep (m : MetadataCache) (location : Path) (d : Descriptor) : MetadataCache :=
  { m with descriptors := m.descriptors.insert location.components d }

@[simp] theorem get?_keep_self (m : MetadataCache) (location : Path) (d : Descriptor) :
    (m.keep location d).get? location = some d := Table.get?_insert_self _ _ _

/-- Keeping a descriptor for an origin without one leaves the kept ones as they are. -/
theorem get?_keep_of_some {m : MetadataCache} {location other : Path} {d' : Descriptor}
    (hn : m.get? location = none) (h : m.get? other = some d') (d : Descriptor) :
    (m.keep location d).get? other = some d' := by
  have hne : other.components ≠ location.components := by
    intro he
    rw [get?, he] at h
    rw [get?, h] at hn
    cases hn
  exact (Table.get?_insert_of_ne _ hne d).trans h

/-- The descriptor of an origin, read and kept if it is asked for the first time. One that cannot
be read counts as empty and leaves a notice. -/
def descriptorFor (t : FileTree) (location : Path) (m : MetadataCache) (s : LookupState) :
    Descriptor × MetadataCache × LookupState :=
  match m.get? location with
  | some d => (d, m, s)
  | none =>
    match m.compute t s.archives location with
    | .ok d => (d, m.keep location d, s)
    | .error e =>
      (Descriptor.empty, m.keep location Descriptor.empty, s.note (.descriptorFailed location e))

/-- What is answered is what is kept. -/
theorem get?_descriptorFor_self (t : FileTree) (location : Path) (m : MetadataCache)
    (s : LookupState) :
    (m.descriptorFor t location s).2.1.get? location = some (m.descriptorFor t location s).1 := by
  unfold descriptorFor
  split
  · assumption
  · split <;> simp

/-- A kept descriptor stays, whatever is asked for. -/
theorem get?_descriptorFor_of_some (t : FileTree) (location : Path) {m : MetadataCache}
    (s : LookupState) {other : Path} {d : Descriptor} (h : m.get? other = some d) :
    (m.descriptorFor t location s).2.1.get? other = some d := by
  unfold descriptorFor
  split
  · exact h
  · rename_i hn
    split <;> exact get?_keep_of_some hn h _

end MetadataCache

end Overlay
