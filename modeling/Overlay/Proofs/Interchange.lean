import Overlay.Proofs.EntryNames
import Overlay.Proofs.Lookups
import Overlay.Proofs.OriginFiles
import Overlay.Proofs.Packing

/-!
# Directories and archives with the same files

A directory looks for a resource by following a path, an archive by comparing names. Both find a
file under its path as it is written. A directory also finds it under every other spelling, and
misses it if the path becomes too long. So a directory and an archive with the same files answer
alike for a resource name unless the name is such another spelling or such a long path.
-/

namespace Overlay

open FileTree

namespace Registry

variable {t : FileTree} {o : Origin} {resource : String} {s : LookupState}

/-- Two registries answer alike for a resource if both find it or neither does, and if both read the
same content. -/
structure AnswersAs (t : FileTree) (r : Registry) (s : LookupState) (t' : FileTree) (r' : Registry)
    (s' : LookupState) (resource : String) : Prop where
  /-- One finds the resource if the other does. -/
  find : (r.find? t resource s).1.isSome = (r'.find? t' resource s').1.isSome
  /-- Both read the same. -/
  content : (r.resolve? t resource s).1.map (Option.map (·.2.bytes)) =
    (r'.resolve? t' resource s').1.map (Option.map (·.2.bytes))

variable {t' : FileTree} {o' : Origin} {s' : LookupState}

/-- What a registry with one origin reads is the content that the origin has. -/
theorem content_only :
    ((only o).resolve? t resource s).1.map (Option.map (·.2.bytes)) =
      (o.readResource t resource s).1.map (Option.map (·.bytes)) := by
  rw [resolve?_only]
  rcases (o.readResource t resource s).1 with e | _ | found <;> rfl

/-- An origin has a resource if reading it does not come out empty. -/
theorem isSome_find?_only_iff :
    ((only o).find? t resource s).1.isSome = false ↔
      (o.readResource t resource s).1.map (Option.map (·.bytes)) = .ok none := by
  rw [isSome_find?_only, ← Origin.readResource_eq_none_iff]
  rcases (o.readResource t resource s).1 with e | _ | found <;> simp [Except.map]

/-- Registries with one origin answer alike if their origins read the same content. -/
theorem answersAs_only_iff :
    AnswersAs t (only o) s t' (only o') s' resource ↔
      (o.readResource t resource s).1.map (Option.map (·.bytes)) =
        (o'.readResource t' resource s').1.map (Option.map (·.bytes)) := by
  constructor
  · intro h
    rw [← content_only, ← content_only, h.content]
  · intro h
    refine ⟨?_, by rw [content_only, content_only, h]⟩
    have hfind : ((only o).find? t resource s).1.isSome = false ↔
        ((only o').find? t' resource s').1.isSome = false := by
      rw [isSome_find?_only_iff, isSome_find?_only_iff, h]
    generalize ((only o).find? t resource s).1.isSome = found at hfind ⊢
    generalize ((only o').find? t' resource s').1.isSome = found' at hfind ⊢
    cases found <;> cases found' <;> simp_all

end Registry

section

variable {t t' : FileTree} {o o' : Origin} {place : Place} {files : List (Place × ByteArray)}
  {s s' : LookupState} {resource : String}

/-- A directory and an archive with the same files answer alike for a resource name exactly if each
file that the name spells is either written so and within the length of a path, or spelled otherwise
and beyond it. -/
theorem answersAs_iff_of_same_files (hd : o.Lays t place files) (ha : o'.Packs t' files)
    (hs : s'.Faithful t') :
    Registry.AnswersAs t (.only o) s t' (.only o') s' resource ↔
      ∀ f ∈ files, Path.Spells resource f.1 →
        ((o.location.join resource).text.utf8ByteSize ≤ pathLimit ↔
          resource = Path.written f.1) := by
  have hat := hd.resolve.2
  have hspells : ∀ f ∈ files, resource = Path.written f.1 → Path.Spells resource f.1 := by
    rintro f hf rfl
    exact hd.holds.spells_written hat hf
  rw [Registry.answersAs_only_iff]
  by_cases hspelled : ∃ f ∈ files, Path.Spells resource f.1
  case neg =>
    have hnone : ∀ f ∈ files, ¬Path.Spells resource f.1 := fun f hf hf' => hspelled ⟨f, hf, hf'⟩
    rw [hd.readResource_of_unspelled fun f hf hf' => absurd hf' (hnone f hf),
      ha.readResource_of_unwritten hs fun f hf hr => hnone f hf (hspells f hf hr)]
    exact iff_of_true rfl fun f hf hf' => absurd hf' (hnone f hf)
  case pos =>
    obtain ⟨f, hf, hspell⟩ := hspelled
    have hplace : ∀ g ∈ files, Path.Spells resource g.1 → g.1 = f.1 :=
      fun g _ hg => hg.eq hspell
    have hall : (∀ g ∈ files, Path.Spells resource g.1 →
        ((o.location.join resource).text.utf8ByteSize ≤ pathLimit ↔ resource = Path.written g.1)) ↔
        ((o.location.join resource).text.utf8ByteSize ≤ pathLimit ↔
          resource = Path.written f.1) := by
      constructor
      · exact fun h => h f hf hspell
      · intro h g hg hspell'
        rw [hplace g hg hspell', h]
    have hlong : ¬(o.location.join resource).text.utf8ByteSize ≤ pathLimit →
        (o.readResource t resource s).1 = .ok none := by
      intro h
      exact hd.readResource_of_unspelled (fun _ _ _ => Nat.lt_of_not_le h) s
    have hshort : (o.location.join resource).text.utf8ByteSize ≤ pathLimit →
        (o.readResource t resource s).1 = .ok (some ⟨.file (o.location.join resource), f.2⟩) :=
      fun h => hd.readResource_of_spells hf hspell h s
    have hwritten : resource = Path.written f.1 →
        (o'.readResource t' resource s').1 = .ok (some ⟨o'.locate resource, f.2⟩) := by
      rintro rfl
      refine ha.readResource_of_written hs (hd.holds.staysBelow hf hspell) hf fun g hg he => ?_
      exact hd.holds.content_eq hg hf (hplace g hg (hspells g hg he.symm))
    have hother : resource ≠ Path.written f.1 → (o'.readResource t' resource s').1 = .ok none := by
      intro hne
      refine ha.readResource_of_unwritten hs fun g hg he => hne ?_
      rw [he, hplace g hg (hspells g hg he)]
    rw [hall]
    by_cases hs' : (o.location.join resource).text.utf8ByteSize ≤ pathLimit <;>
      by_cases hr : resource = Path.written f.1
    · rw [hshort hs', hwritten hr]
      exact iff_of_true rfl (iff_of_true hs' hr)
    · rw [hshort hs', hother hr]
      exact iff_of_false nofun fun h => hr (h.1 hs')
    · rw [hlong hs', hwritten hr]
      exact iff_of_false nofun fun h => hs' (h.2 hr)
    · rw [hlong hs', hother hr]
      exact iff_of_true rfl (iff_of_false hs' hr)

end

namespace Twins

/-- One file, two names below its directory. -/
def files : List (Place × ByteArray) := [(["a", "b"], "x".toUTF8)]

/-- The file in an archive. -/
def archiveBytes : ByteArray :=
  ⟨(Tar.pack [("a/b".toUTF8.data.toList, "x".toUTF8.data.toList)]).toArray⟩

/-- The file below a directory, and an archive with it beside the directory. -/
def tree : FileTree where
  nodes := [(["d"], .directory), (["d", "a"], .directory), (["d", "a", "b"], .file "x".toUTF8),
    (["d.tar"], .file archiveBytes)]
  workingDirectory := []

/-- The directory. -/
def directory : Origin := ⟨⟨"/d"⟩, .directory⟩

/-- The archive. -/
def archive : Origin := ⟨⟨"/d.tar"⟩, .archive⟩

/-- A name is plain if it passes the tests. -/
theorem isPlain_of {name : String} (h : name ≠ "" ∧ name ≠ "." ∧ name ≠ ".." ∧
    '/' ∉ name.toList ∧ name.utf8ByteSize ≤ nameLimit) : IsPlain name :=
  ⟨h.1, h.2.1, h.2.2.1, h.2.2.2.1, h.2.2.2.2⟩

theorem settled_d : Settled tree ["d"] :=
  have hroot : Settled tree [] := .root
  hroot.enter rfl (isPlain_of (by decide)) rfl nofun

theorem settled_file : Settled tree ["d", "a", "b"] :=
  have hinner : Settled tree ["d", "a"] :=
    settled_d.enter rfl (isPlain_of (by decide)) rfl nofun
  hinner.enter rfl (isPlain_of (by decide)) rfl nofun

theorem settled_archive : Settled tree ["d.tar"] :=
  have hroot : Settled tree [] := .root
  hroot.enter rfl (isPlain_of (by decide)) rfl nofun

theorem read_archive : tree.read ⟨"/d.tar"⟩ = .ok archiveBytes := rfl

/-- The directory has the file. -/
theorem lays : directory.Lays tree ["d"] files where
  stands := ⟨⟨["d"], settled_d, rfl⟩, by decide +kernel⟩
  kind_eq := rfl
  location_eq := rfl
  holds :=
    { settled := settled_d
      file := by
        rintro f hf
        obtain rfl := List.mem_singleton.1 hf
        exact ⟨settled_file, rfl⟩
      nullless := by
        rintro f hf
        obtain rfl := List.mem_singleton.1 hf
        decide
      only := by
        intro below n hne hn
        have hmem := mem_nodes_of_nodeAt? (by simp) hn
        simp only [tree, List.mem_cons, List.not_mem_nil, or_false, Prod.mk.injEq,
          List.singleton_append, List.cons.injEq, true_and] at hmem
        rcases hmem with ⟨rfl, -⟩ | ⟨-, rfl⟩ | ⟨rfl, rfl⟩ | ⟨hd, -⟩
        · exact absurd rfl hne
        · exact Or.inl rfl
        · exact Or.inr ⟨_, rfl, List.mem_singleton.2 rfl⟩
        · exact absurd hd.1 (by decide) }

theorem contents_archive : Archive.contents tree archive.location =
    .ok ⟨[Tar.memberOf "a/b".toUTF8.data.toList "x".toUTF8.data.toList], true⟩ := by
  have hfits : ∀ f ∈ [("a/b".toUTF8.data.toList, "x".toUTF8.data.toList)], Tar.Fits f.1 f.2 := by
    rintro f hf
    obtain rfl := List.mem_singleton.1 hf
    exact ⟨by decide, by decide, by decide⟩
  exact Archive.contents_of_packed hfits (by decide +kernel) read_archive rfl (by decide +kernel)

/-- The archive has the file. -/
theorem packs : archive.Packs tree files where
  stands := ⟨⟨["d.tar"], settled_archive, rfl⟩, by decide +kernel⟩
  kind_eq := rfl
  stores := by
    have hname : Archive.memberName
        (Tar.memberOf "a/b".toUTF8.data.toList "x".toUTF8.data.toList) = "a/b" := by
      have hstored : Text.Utf8.decodeLenient
          (Tar.memberOf "a/b".toUTF8.data.toList "x".toUTF8.data.toList).name = "a/b" := by
        decide +kernel
      rw [Archive.memberName, hstored]
      exact Archive.entryName_eq_self_iff.2 ⟨by decide, by decide, by decide⟩
    refine ⟨_, contents_archive, rfl, ?_, ?_⟩
    · intro m hm hfile
      obtain rfl := List.mem_singleton.1 hm
      exact ⟨_, List.mem_singleton.2 rfl, hname, rfl⟩
    · intro f hf
      obtain rfl := List.mem_singleton.1 hf
      exact ⟨_, List.mem_singleton.2 rfl, rfl, hname, rfl⟩

/-- Under its name as it is written the file is found in both. -/
theorem answersAs_written :
    directory.Lays tree ["d"] files ∧ archive.Packs tree files ∧
      LookupState.empty.Faithful tree ∧
      Registry.AnswersAs tree (.only directory) .empty tree (.only archive) .empty "a/b" := by
  refine ⟨lays, packs, LookupState.faithful_empty tree, ?_⟩
  refine (answersAs_iff_of_same_files lays packs (LookupState.faithful_empty tree)).2 ?_
  intro f hf _
  obtain rfl := List.mem_singleton.1 hf
  exact iff_of_true (by decide) (by decide)

/-- With a second slash in its name the file is found in the directory, but not in the archive. -/
theorem doubled_slash_only_in_directory :
    directory.Lays tree ["d"] files ∧ archive.Packs tree files ∧
      LookupState.empty.Faithful tree ∧
      ((Registry.only directory).find? tree "a//b" .empty).1 = some (.file ⟨"/d/a//b"⟩) ∧
      ((Registry.only archive).find? tree "a//b" .empty).1 = none ∧
      ¬Registry.AnswersAs tree (.only directory) .empty tree (.only archive) .empty "a//b" := by
  have hfound : ((Registry.only directory).find? tree "a//b" .empty).1 =
      some (.file ⟨"/d/a//b"⟩) := by decide +kernel
  have hmissing : ((Registry.only archive).find? tree "a//b" .empty).1 = none := by
    have hnone : (archive.readResource tree "a//b" .empty).1 = .ok none := by
      refine packs.readResource_of_unwritten (LookupState.faithful_empty tree) fun f hf => ?_
      obtain rfl := List.mem_singleton.1 hf
      decide
    rw [Registry.find?_eq_none_iff, Registry.resolve?_only, hnone]
    rfl
  refine ⟨lays, packs, LookupState.faithful_empty tree, hfound, hmissing, fun h => ?_⟩
  have hsame := h.find
  rw [hfound, hmissing] at hsame
  cases hsame

end Twins

end Overlay
