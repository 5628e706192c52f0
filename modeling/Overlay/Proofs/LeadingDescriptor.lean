import Overlay.Proofs.Packing
import Overlay.Proofs.Attribution
import Overlay.Proofs.Scanning

/-!
# The descriptor in the leading block

An archive's descriptor is looked for in the leading block first, the run of entries in the
descriptor's directory at the front, and among all entries only if the block has none. Where the
descriptor lies makes no difference, with one exception: if the block has a descriptor, a later one
behind the block is not seen, although it is the one that an index returns.
-/

namespace Overlay

/-- The descriptor that the content of an entry is read as; without an entry it is empty. -/
def Descriptor.ofContent? : Option ByteArray → Descriptor
  | some data => parse (Text.Utf8.decodeLenient data)
  | none => empty

namespace MetadataCache

/-- Whether an entry lies in the descriptor's directory. -/
def isBeside (m : MetadataCache) (e : Archive.Entry) : Bool :=
  m.directoryPrefix.toList.isPrefixOf e.1.toList

/-- The leading block of an archive: the entries in front of the first one elsewhere. -/
def block (m : MetadataCache) (i : ArchiveIndex) : List Archive.Entry :=
  i.entries.takeWhile m.isBeside

/-- The entries behind the leading block. -/
def behind (m : MetadataCache) (i : ArchiveIndex) : List Archive.Entry :=
  i.entries.dropWhile m.isBeside

variable {m : MetadataCache} {i : ArchiveIndex} {es : List Archive.Entry}

theorem block_append_behind (m : MetadataCache) (i : ArchiveIndex) :
    m.block i ++ m.behind i = i.entries := List.takeWhile_append_dropWhile

/-- The descriptor among some entries is the last one. -/
theorem leadingDescriptor?_eq_some_iff {data : ByteArray} :
    m.leadingDescriptor? es = some data ↔ Archive.Last es m.descriptorPath data :=
  ArchiveIndex.read?_eq_some_iff (i := ⟨⟨""⟩, es⟩)

/-- The index returns the descriptor behind the leading block, or else the one in the block. -/
theorem read?_descriptorPath (m : MetadataCache) (i : ArchiveIndex) :
    i.read? m.descriptorPath =
      (m.leadingDescriptor? (m.behind i)).or (m.leadingDescriptor? (m.block i)) := by
  rw [ArchiveIndex.read?, ← m.block_append_behind i, List.reverse_append, List.find?_append,
    Option.map_or]
  rfl

/-- A descriptor in the leading block is taken with the signers there. -/
theorem ofView_of_leading {data : ByteArray}
    (h : m.leadingDescriptor? (m.block i) = some data) :
    m.ofView i = (Descriptor.parse (Text.Utf8.decodeLenient data)).withSigners
      (m.leadingSigners (m.block i)) := by
  rw [block] at h ⊢
  unfold isBeside at h ⊢
  rw [ofView, h]

/-- Without one the index is asked. -/
theorem ofView_of_not_leading (h : m.leadingDescriptor? (m.block i) = none) :
    m.ofView i = m.ofIndex i (m.leadingSigners (m.block i)) := by
  rw [block] at h ⊢
  unfold isBeside at h ⊢
  rw [ofView, h]

/-- The descriptor is that in the leading block, or else the one that the index returns. -/
theorem entries_ofView (m : MetadataCache) (i : ArchiveIndex) :
    (m.ofView i).entries =
      (Descriptor.ofContent?
        ((m.leadingDescriptor? (m.block i)).or (i.read? m.descriptorPath))).entries := by
  cases h : m.leadingDescriptor? (m.block i) with
  | some data =>
    rw [ofView_of_leading h]
    rfl
  | none =>
    rw [ofView_of_not_leading h, Option.none_or, ofIndex]
    cases i.read? m.descriptorPath <;> rfl

/-- What an archive is described as for the first time, if a live view shows the file as it is. -/
theorem descriptorFor_eq_ofView {t : FileTree} {p : Path} {s : LookupState}
    (hnew : m.get? p = none) (hi : ArchiveIndex.ofPath t p = .ok i)
    (hlive : ∀ j, s.archives.get? p = some j → j.entries = i.entries) :
    (m.descriptorFor t p s).1 = m.ofView i := by
  obtain ⟨hfile, -⟩ := ArchiveIndex.ofPath_of_read_eq rfl hi
  rcases m.descriptorFor_cases t p s with ⟨d, hd, -⟩ | ⟨-, hfresh, -⟩
  · rw [hnew] at hd
    cases hd
  · rw [hfresh, fresh_eq_ofView hfile hi hlive]

/-- The leading block hides a later descriptor that says otherwise. -/
def Hides (m : MetadataCache) (i : ArchiveIndex) : Prop :=
  ∃ data later key, Archive.Last (m.block i) m.descriptorPath data ∧
    Archive.Last (m.behind i) m.descriptorPath later ∧
    (Descriptor.ofContent? (some data)).get? key ≠ (Descriptor.ofContent? (some later)).get? key

/-- How the descriptor of an archive depends on where it lies. -/
structure Locates (m : MetadataCache) (i : ArchiveIndex) (d : Descriptor) : Prop where
  /-- It has the keys and values of what the index returns, unless the leading block hides that. -/
  indexed_iff : (∀ key, d.get? key =
    (Descriptor.ofContent? (i.read? m.descriptorPath)).get? key) ↔ ¬ m.Hides i
  /-- It has those of the last descriptor in the leading block, if there is one. -/
  leading : ∀ data, Archive.Last (m.block i) m.descriptorPath data →
    d.entries = (Descriptor.ofContent? (some data)).entries
  /-- It has none if the index returns no descriptor. -/
  absent : i.read? m.descriptorPath = none → d.entries = Table.empty

/-- The descriptor of an archive is the one that its index returns, wherever that lies, unless the
leading block has another one. -/
theorem locates_descriptorFor {t : FileTree} {p : Path} {s : LookupState}
    (hnew : m.get? p = none) (hi : ArchiveIndex.ofPath t p = .ok i)
    (hlive : ∀ j, s.archives.get? p = some j → j.entries = i.entries) :
    m.Locates i (m.descriptorFor t p s).1 := by
  rw [descriptorFor_eq_ofView hnew hi hlive]
  have hentries := m.entries_ofView i
  have hread := m.read?_descriptorPath i
  have hget (key : String) : (m.ofView i).get? key = (Descriptor.ofContent?
      ((m.leadingDescriptor? (m.block i)).or (i.read? m.descriptorPath))).get? key := by
    rw [Descriptor.get?, hentries]
    rfl
  refine ⟨?indexed_iff, fun data hdata => ?leading, fun hnone => ?absent⟩
  case leading =>
    rw [hentries, leadingDescriptor?_eq_some_iff.2 hdata, Option.some_or]
  case absent =>
    rw [hnone, eq_comm, Option.or_eq_none_iff] at hread
    rw [hentries, hnone, hread.2]
    rfl
  case indexed_iff =>
    simp only [hget, Hides, ← leadingDescriptor?_eq_some_iff]
    rw [hread]
    cases m.leadingDescriptor? (m.block i) with
    | none => simp
    | some data =>
      cases m.leadingDescriptor? (m.behind i) with
      | none => simp
      | some later => simp

end MetadataCache

/-- Without live views none shows anything else than an archive does. -/
theorem LookupState.entries_eq_of_empty {p : Path} (i : ArchiveIndex) (j : ArchiveIndex)
    (h : empty.archives.get? p = some j) : j.entries = i.entries := by
  rw [show empty.archives.get? p = none from rfl] at h
  cases h

namespace TwoDescriptors

open OneArchive
open Versions (symbolFile fits_symbolFile)

/-- A descriptor entry. -/
def descriptorFile (text : String) : PackedFile :=
  ("META-INF/MANIFEST.MF".toUTF8.data.toList, text.toUTF8.data.toList)

/-- An archive with its descriptor behind the leading block. -/
def late : List PackedFile := [symbolFile, descriptorFile "Name: b\n"]

/-- An archive with another descriptor in the leading block. -/
def twice : List PackedFile := descriptorFile "Name: a\n" :: late

theorem fits_late : ∀ f ∈ late, Tar.Fits f.1 f.2 :=
  List.forall_mem_cons.2 ⟨fits_symbolFile,
    List.forall_mem_singleton.2 ⟨by decide, by decide, by decide⟩⟩

theorem fitting_late : Fitting late :=
  fitting_of_fits fits_late (by decide +kernel) (by decide +kernel)

theorem fitting_twice : Fitting twice :=
  fitting_of_fits (List.forall_mem_cons.2 ⟨⟨by decide, by decide, by decide⟩, fits_late⟩)
    (by decide +kernel) (by decide +kernel)

/-- A descriptor behind the leading block is the one that the index returns. -/
theorem locates_late :
    (MetadataCache.ofConfig {}).get? archive.location = none ∧
      ArchiveIndex.ofPath (treeOf late) archive.location = .ok (viewOf late) ∧
      (∀ j, LookupState.empty.archives.get? archive.location = some j →
        j.entries = (viewOf late).entries) ∧
      (MetadataCache.ofConfig {}).Locates (viewOf late)
        ((MetadataCache.ofConfig {}).descriptorFor (treeOf late) archive.location .empty).1 :=
  ⟨rfl, fitting_late.ofPath, LookupState.entries_eq_of_empty _,
    MetadataCache.locates_descriptorFor rfl fitting_late.ofPath (LookupState.entries_eq_of_empty _)⟩

/-- A descriptor in the leading block hides the later one that the index returns. -/
theorem leading_descriptor_hides_later :
    ArchiveIndex.ofPath (treeOf twice) archive.location = .ok (viewOf twice) ∧
      ((MetadataCache.ofConfig {}).descriptorFor (treeOf twice) archive.location
        .empty).1.get? "Name" = some "a" ∧
      (Descriptor.ofContent? ((viewOf twice).read?
        (MetadataCache.ofConfig {}).descriptorPath)).get? "Name" = some "b" := by
  refine ⟨fitting_twice.ofPath, ?_, by decide +kernel⟩
  rw [MetadataCache.descriptorFor_eq_ofView rfl fitting_twice.ofPath
    (LookupState.entries_eq_of_empty _)]
  decide +kernel

end TwoDescriptors

end Overlay
