import Overlay.Proofs.LeadingDescriptor
import Overlay.Proofs.OriginFiles

/-!
# The order of the signers

The signers of an archive are gathered in two ways. If the leading block has a descriptor or a
signing entry, or the archive has no descriptor, they are those in the block, in archive order. Else
they are looked up in the index, which lists them by entry name and counts the descriptor among them
if its own name ends like that of a signing entry.
-/

namespace Overlay

namespace Archive

variable {es : List Entry} {e : Entry}

/-- Entries sorted by name. -/
def byName (es : List Entry) : List Entry := es.mergeSort fun e e' => decide (e.1 ≤ e'.1)

theorem mem_byName : e ∈ byName es ↔ e ∈ es := List.mem_mergeSort

theorem length_byName (es : List Entry) : (byName es).length = es.length := List.length_mergeSort es

/-- Sorted entries with different names increase strictly. -/
theorem pairwise_byName (h : (es.map (·.1)).Nodup) :
    ((byName es).map (·.1)).Pairwise (· < ·) := by
  have hmap : (byName es).map (·.1) = (es.map (·.1)).mergeSort (· ≤ ·) :=
    List.map_mergeSort fun _ _ _ _ => rfl
  have hdistinct := (List.mergeSort_perm (es.map (·.1)) (· ≤ ·)).nodup_iff.2 h
  rw [hmap]
  exact ((List.pairwise_mergeSort' (· ≤ ·) _).and hdistinct).imp fun h => lt_of_le_of_ne h.1 h.2

/-- Two entries change places if the second has the smaller name. -/
theorem byName_pair {e e' : Entry} (h : e'.1 < e.1) : byName [e, e'] = [e', e] := by
  simp [byName, List.mergeSort, List.MergeSort.Internal.splitInTwo, h.not_ge]

/-- Of entries with different names there is one with a name. -/
theorem snd_eq_of_nodup (h : (es.map (·.1)).Nodup) (he : e ∈ es) :
    ∀ e' ∈ es, e'.1 = e.1 → e'.2 = e.2 := fun _ he' hname =>
  congrArg Prod.snd (List.inj_on_of_nodup_map h he' he hname)

end Archive

namespace MetadataCache

open Archive

variable {m : MetadataCache} {i : ArchiveIndex}

/-- The directory's prefix begins the descriptor's path. -/
theorem directoryPrefix_prefix (m : MetadataCache) :
    m.directoryPrefix.toList <+: m.descriptorPath.toList := by
  rw [directoryPrefix]
  cases h : Text.beforeLast '/' m.descriptorPath.toList with
  | none => exact List.nil_prefix
  | some front =>
    dsimp only
    rw [String.toList_ofList]
    exact Text.prefix_of_beforeLast h

/-- Whether an entry beside the descriptor has a name like a signing entry. -/
def isCandidate (m : MetadataCache) (e : Entry) : Bool := m.isBeside e && m.isSigner e.1

theorem isCandidate_iff {e : Entry} : m.isCandidate e = true ↔
    m.directoryPrefix.toList <+: e.1.toList ∧ m.isSigner e.1 = true := by
  rw [isCandidate, isBeside, Bool.and_eq_true, List.isPrefixOf_iff_prefix]

/-- The signing entries of an archive, in its order. -/
def signing (m : MetadataCache) (i : ArchiveIndex) : List Entry :=
  i.entries.filter fun e => m.isCandidate e && e.1 != m.descriptorPath

/-- The identities in some entries. -/
def identities (es : List Entry) : List String := es.map fun e => identity e.2

/-- The signers of an archive are left to the index. -/
structure Deferred (m : MetadataCache) (i : ArchiveIndex) : Prop where
  /-- The leading block has neither a descriptor nor a signing entry. -/
  bare : ∀ e ∈ m.block i, e.1 ≠ m.descriptorPath ∧ m.isSigner e.1 = false
  /-- There is a descriptor behind it. -/
  described : i.contains m.descriptorPath = true

/-- The signers in the leading block are signing entries in archive order. -/
theorem leadingSigners_sublist (m : MetadataCache) (i : ArchiveIndex) :
    (m.leadingSigners (m.block i)).Sublist (identities (m.signing i)) := by
  have hbeside : (m.block i).filter (fun e => e.1 != m.descriptorPath && m.isSigner e.1) =
      (m.block i).filter fun e => m.isCandidate e && e.1 != m.descriptorPath := by
    refine List.filter_congr fun e he => ?_
    rw [isCandidate, List.mem_takeWhile_imp he, Bool.true_and, Bool.and_comm]
  rw [leadingSigners, hbeside]
  exact ((List.takeWhile_sublist _).filter _).map _

/-- The names that the index looks up are those of the candidates, sorted. -/
theorem filter_namesUnder (hnames : (i.entries.map (·.1)).Nodup) :
    (i.namesUnder m.directoryPrefix).filter m.isSigner =
      (byName (i.entries.filter m.isCandidate)).map (·.1) := by
  refine List.Pairwise.eq_of_mem_iff (r := (· < ·)) ((i.pairwise_namesUnder _).filter _)
    (pairwise_byName (hnames.sublist (List.filter_sublist.map _))) fun name => ?_
  simp only [List.mem_filter, ArchiveIndex.mem_namesUnder_iff, ArchiveIndex.contains_iff,
    List.mem_map, mem_byName, isCandidate_iff]
  constructor
  · rintro ⟨⟨⟨e, he, rfl⟩, hunder⟩, hsuffix⟩
    exact ⟨e, ⟨he, hunder, hsuffix⟩, rfl⟩
  · rintro ⟨e, ⟨he, hunder, hsuffix⟩, rfl⟩
    exact ⟨⟨⟨e, he, rfl⟩, hunder⟩, hsuffix⟩

/-- The index lists the candidates by name. -/
theorem indexedSigners_eq (hnames : (i.entries.map (·.1)).Nodup) :
    m.indexedSigners i = identities (byName (i.entries.filter m.isCandidate)) := by
  have hread : ∀ e ∈ byName (i.entries.filter m.isCandidate), i.read? e.1 = some e.2 := by
    intro e he
    have hentry := (List.mem_filter.1 (mem_byName.1 he)).1
    exact ArchiveIndex.read?_of_mem hentry (snd_eq_of_nodup hnames hentry)
  rw [indexedSigners, filter_namesUnder hnames, List.filterMap_map,
    List.filterMap_congr (g := fun e => some e.2) hread, List.filterMap_eq_map', List.map_map]
  rfl

/-- A scan finds nothing among entries that are neither a descriptor nor signing entries. -/
theorem leading_eq_none_iff {es : List Entry} :
    m.leadingDescriptor? es = none ∧ m.leadingSigners es = [] ↔
      ∀ e ∈ es, e.1 ≠ m.descriptorPath ∧ m.isSigner e.1 = false := by
  rw [leadingDescriptor?, Option.map_eq_none_iff, List.find?_eq_none, leadingSigners,
    List.map_eq_nil_iff, List.filter_eq_nil_iff]
  constructor
  · rintro ⟨hdescriptor, hsigners⟩ e he
    have hname : e.1 ≠ m.descriptorPath := by simpa using hdescriptor e (List.mem_reverse.2 he)
    exact ⟨hname, by simpa [hname] using hsigners e he⟩
  · intro h
    refine ⟨fun e he => ?_, fun e he => by simp [(h e he).2]⟩
    simpa using (h e (List.mem_reverse.1 he)).1

/-- If the signers are left to the index, they are those that it lists. -/
theorem Deferred.signers (h : m.Deferred i) : (m.ofView i).signers = m.indexedSigners i := by
  obtain ⟨hdescriptor, hsigners⟩ := leading_eq_none_iff.2 h.bare
  obtain ⟨data, hdata⟩ := Option.isSome_iff_exists.1 ((i.isSome_read? _).trans h.described)
  rw [ofView_of_not_leading hdescriptor, hsigners, ofIndex, hdata]
  rfl

/-- Else they are those in the leading block. -/
theorem signers_of_not_deferred (h : ¬ m.Deferred i) :
    (m.ofView i).signers = m.leadingSigners (m.block i) := by
  cases hdescriptor : m.leadingDescriptor? (m.block i) with
  | some data =>
    rw [ofView_of_leading hdescriptor]
    rfl
  | none =>
    rw [ofView_of_not_leading hdescriptor, ofIndex]
    cases hdata : i.read? m.descriptorPath with
    | none => rfl
    | some data =>
      -- An archive with a descriptor, but none in the block, has a signing entry there.
      have hcontains : i.contains m.descriptorPath = true := by
        rw [← i.isSome_read?, hdata]
        rfl
      have hsome : m.leadingSigners (m.block i) ≠ [] := fun hnil =>
        h ⟨leading_eq_none_iff.1 ⟨hdescriptor, hnil⟩, hcontains⟩
      rw [if_neg hsome]
      rfl

/-- A descriptor whose name ends like that of a signing entry is one candidate more. -/
theorem length_signing_lt (hpath : i.contains m.descriptorPath = true)
    (hsuffix : m.isSigner m.descriptorPath = true) :
    (m.signing i).length < (i.entries.filter m.isCandidate).length := by
  obtain ⟨e, he, hname⟩ := ArchiveIndex.contains_iff.1 hpath
  have hcandidate : m.isCandidate e = true := by
    rw [isCandidate_iff, hname]
    exact ⟨m.directoryPrefix_prefix, hsuffix⟩
  have hfilter : m.signing i =
      (i.entries.filter m.isCandidate).filter fun e => e.1 != m.descriptorPath := by
    rw [List.filter_filter, signing]
    exact List.filter_congr fun e _ => Bool.and_comm _ _
  rw [hfilter, List.length_filter_lt_length_iff_exists]
  exact ⟨e, List.mem_filter.2 ⟨he, hcandidate⟩, by simp [hname]⟩

/-- With another name it is none. -/
theorem signing_eq (hsuffix : m.isSigner m.descriptorPath = false) :
    m.signing i = i.entries.filter m.isCandidate := by
  refine List.filter_congr fun e _ => ?_
  by_cases hname : e.1 = m.descriptorPath
  · rw [isCandidate, hname, hsuffix, Bool.and_false, Bool.false_and]
  · rw [bne_iff_ne.2 hname, Bool.and_true]

/-- The signers of an archive whose entries have different names are in archive order if and only
if they are not left to the index, or the descriptor is not taken for a signing entry and the
signing entries are in order when they are sorted by name. -/
theorem signers_sublist_iff {t : FileTree} {p : Path} {s : LookupState}
    (hnew : m.get? p = none) (hi : ArchiveIndex.ofPath t p = .ok i)
    (hlive : ∀ j, s.archives.get? p = some j → j.entries = i.entries)
    (hnames : (i.entries.map (·.1)).Nodup) :
    (m.descriptorFor t p s).1.signers.Sublist (identities (m.signing i)) ↔
      (m.Deferred i → m.isSigner m.descriptorPath = false ∧
        identities (byName (m.signing i)) = identities (m.signing i)) := by
  rw [descriptorFor_eq_ofView hnew hi hlive]
  by_cases hdeferred : m.Deferred i
  case neg =>
    rw [signers_of_not_deferred hdeferred]
    exact iff_of_true (m.leadingSigners_sublist i) fun h => absurd h hdeferred
  case pos =>
    rw [hdeferred.signers, indexedSigners_eq hnames, forall_prop_of_true hdeferred]
    cases hsuffix : m.isSigner m.descriptorPath with
    | true =>
      have hlonger := length_signing_lt hdeferred.described hsuffix
      refine iff_of_false (fun hsublist => ?_) fun h => Bool.noConfusion h.1
      have hle := hsublist.length_le
      rw [identities, identities, List.length_map, List.length_map, length_byName] at hle
      exact Nat.not_lt_of_le hle hlonger
    | false =>
      rw [signing_eq hsuffix]
      refine ⟨fun hsublist => ⟨rfl, hsublist.eq_of_length ?_⟩, fun h => h.2 ▸ List.Sublist.refl _⟩
      rw [identities, identities, List.length_map, List.length_map, length_byName]

end MetadataCache

namespace TwoSigners

open OneArchive
open Versions (symbolFile fits_symbolFile)
open TwoDescriptors (descriptorFile)

/-- A signing entry. -/
def signerFile (name identity : String) : PackedFile :=
  (("META-INF/" ++ name ++ ".sig").toUTF8.data.toList, identity.toUTF8.data.toList)

/-- Two signing entries that are not in the order of their names, in front of the descriptor. -/
def signed : List PackedFile :=
  [signerFile "b" "bob", signerFile "a" "amy", descriptorFile "Name: x\n"]

/-- An archive in which they are in the leading block. -/
def leading : List PackedFile := signed ++ [symbolFile]

/-- An archive in which they are behind it. -/
def deferred : List PackedFile := symbolFile :: signed

theorem fits_signed : ∀ f ∈ signed, Tar.Fits f.1 f.2 :=
  List.forall_mem_cons.2 ⟨⟨by decide, by decide, by decide⟩,
    List.forall_mem_cons.2 ⟨⟨by decide, by decide, by decide⟩,
      List.forall_mem_singleton.2 ⟨by decide, by decide, by decide⟩⟩⟩

theorem fitting_leading : Fitting leading :=
  fitting_of_fits (List.forall_mem_append.2 ⟨fits_signed, List.forall_mem_singleton.2
    fits_symbolFile⟩) (by decide +kernel) (by decide +kernel)

theorem fitting_deferred : Fitting deferred :=
  fitting_of_fits (List.forall_mem_cons.2 ⟨fits_symbolFile, fits_signed⟩) (by decide +kernel)
    (by decide +kernel)

/-- In the leading block the signers are listed in archive order. -/
theorem signers_in_leading_block :
    (MetadataCache.ofConfig {}).get? archive.location = none ∧
      ArchiveIndex.ofPath (treeOf leading) archive.location = .ok (viewOf leading) ∧
      (∀ j, LookupState.empty.archives.get? archive.location = some j →
        j.entries = (viewOf leading).entries) ∧
      ((viewOf leading).entries.map (·.1)).Nodup ∧
      ((MetadataCache.ofConfig {}).descriptorFor (treeOf leading) archive.location
        .empty).1.signers.Sublist
          (MetadataCache.identities ((MetadataCache.ofConfig {}).signing (viewOf leading))) := by
  have hnames : ((viewOf leading).entries.map (·.1)).Nodup := by decide +kernel
  have hblock : ¬ ∀ e ∈ (MetadataCache.ofConfig {}).block (viewOf leading),
      e.1 ≠ (MetadataCache.ofConfig {}).descriptorPath ∧
        (MetadataCache.ofConfig {}).isSigner e.1 = false := by decide +kernel
  exact ⟨rfl, fitting_leading.ofPath, LookupState.entries_eq_of_empty _, hnames,
    (MetadataCache.signers_sublist_iff rfl fitting_leading.ofPath
      (LookupState.entries_eq_of_empty _) hnames).2 fun h => absurd h.bare hblock⟩

/-- Behind it they are listed by entry name. -/
theorem deferred_signers_out_of_order :
    ArchiveIndex.ofPath (treeOf deferred) archive.location = .ok (viewOf deferred) ∧
      ((viewOf deferred).entries.map (·.1)).Nodup ∧
      ((MetadataCache.ofConfig {}).descriptorFor (treeOf deferred) archive.location
        .empty).1.signers = ["amy", "bob"] ∧
      ¬ ((MetadataCache.ofConfig {}).descriptorFor (treeOf deferred) archive.location
        .empty).1.signers.Sublist
          (MetadataCache.identities ((MetadataCache.ofConfig {}).signing (viewOf deferred))) := by
  have hnames : ((viewOf deferred).entries.map (·.1)).Nodup := by decide +kernel
  have hdeferred : (MetadataCache.ofConfig {}).Deferred (viewOf deferred) :=
    ⟨by decide +kernel, by decide +kernel⟩
  have hcandidates : (viewOf deferred).entries.filter (MetadataCache.ofConfig {}).isCandidate =
      [("META-INF/b.sig", "bob".toUTF8), ("META-INF/a.sig", "amy".toUTF8)] := by decide +kernel
  have hsigners : ((MetadataCache.ofConfig {}).descriptorFor (treeOf deferred) archive.location
      .empty).1.signers = ["amy", "bob"] := by
    rw [MetadataCache.descriptorFor_eq_ofView rfl fitting_deferred.ofPath
      (LookupState.entries_eq_of_empty _), hdeferred.signers,
      MetadataCache.indexedSigners_eq hnames, hcandidates, Archive.byName_pair (by decide)]
    decide +kernel
  refine ⟨fitting_deferred.ofPath, hnames, hsigners, ?_⟩
  rw [hsigners]
  decide +kernel

end TwoSigners

end Overlay
