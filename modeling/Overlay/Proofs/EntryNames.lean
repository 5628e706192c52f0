import Overlay.Proofs.Confinement
import Overlay.Proofs.Packing
import Overlay.Proofs.Scanning

/-!
# Names of archive entries

An archive's file entry goes by the path that it is stored under, with slashes for backslashes,
without the `./` that it starts with and then without the slashes that it starts with. The cuts are
made once and in this order, so a name never has a backslash or a slash at its start, but it starts
with `./` if that stood behind slashes. Such a name is not in normal form: cutting it again changes
it, and since it starts with a dot, every look-up refuses it.
-/

namespace Overlay

namespace Archive

/-- A stored path with slashes for backslashes. -/
def slashed (stored : String) : List Char := (SymbolName.swap '\\' '/' stored).toList

/-- So many `./` in a row. -/
def heres (count : Nat) : List Char := (List.replicate count ['.', '/']).flatten

/-- The name of an entry is what is left of its path with slashes after both cuts. -/
theorem toList_entryName (stored : String) :
    (entryName stored).toList = (dropHere (slashed stored)).dropWhile (· == '/') := by
  rw [entryName, entryChars, slashed, SymbolName.swap, String.toList_ofList, String.toList_ofList]

section Cuts

variable {cs : List Char}

theorem dropHere_heres (count : Nat) (cs : List Char) :
    dropHere (heres count ++ cs) = dropHere cs := by
  induction count with
  | zero => rfl
  | succ count ih => rw [heres, List.replicate_succ, List.flatten_cons]; exact ih

theorem dropHere_of_not_prefix (h : ¬['.', '/'] <+: cs) : dropHere cs = cs := by
  unfold dropHere
  split
  · exact absurd (List.prefix_append ['.', '/'] _) h
  · rfl

/-- The first cut takes off some `./`, and leaves none at the start. -/
theorem exists_heres_append_dropHere (cs : List Char) :
    (∃ count, heres count ++ dropHere cs = cs) ∧ ¬['.', '/'] <+: dropHere cs := by
  fun_induction dropHere cs with
  | case1 cs ih =>
    obtain ⟨⟨count, hcount⟩, hnot⟩ := ih
    refine ⟨⟨count + 1, ?_⟩, hnot⟩
    rw [heres, List.replicate_succ, List.flatten_cons, List.append_assoc, ← heres, hcount]
    rfl
  | case2 cs hne =>
    refine ⟨⟨0, rfl⟩, ?_⟩
    rintro ⟨rest, rfl⟩
    exact hne rest rfl

theorem dropHere_suffix (cs : List Char) : dropHere cs <:+ cs := by
  obtain ⟨⟨count, hcount⟩, -⟩ := exists_heres_append_dropHere cs
  exact ⟨heres count, hcount⟩

/-- The second cut takes off some slashes, and leaves none at the start. -/
theorem exists_slashes_append_dropWhile (cs : List Char) :
    (∃ count, List.replicate count '/' ++ cs.dropWhile (· == '/') = cs) ∧
      ¬['/'] <+: cs.dropWhile (· == '/') := by
  induction cs with
  | nil => exact ⟨⟨0, rfl⟩, by simp⟩
  | cons c cs ih =>
    obtain ⟨⟨count, hcount⟩, hnot⟩ := ih
    by_cases hc : c = '/'
    · rw [hc, List.dropWhile_cons_of_pos rfl]
      exact ⟨⟨count + 1, congrArg ('/' :: ·) hcount⟩, hnot⟩
    · rw [List.dropWhile_cons_of_neg (by simpa using hc)]
      exact ⟨⟨0, rfl⟩, by simpa using Ne.symm hc⟩

theorem dropWhile_slashes (count : Nat) (h : ¬['/'] <+: cs) :
    (List.replicate count '/' ++ cs).dropWhile (· == '/') = cs := by
  induction count with
  | zero =>
    cases cs with
    | nil => rfl
    | cons c cs =>
      refine List.dropWhile_cons_of_neg fun hc => h ?_
      rw [eq_of_beq hc]
      exact List.prefix_append ['/'] cs
  | succ count ih => exact ih

end Cuts

section Names

variable {stored name : String}

theorem slashed_of_not_mem (h : '\\' ∉ name.toList) : slashed name = name.toList := by
  rw [slashed, SymbolName.swap_of_not_mem h]

/-- The name of an entry has no backslash. -/
theorem backslash_not_mem_entryName (stored : String) : '\\' ∉ (entryName stored).toList := by
  rw [toList_entryName]
  intro hmem
  have hslashed : '\\' ∈ slashed stored :=
    (dropHere_suffix _).subset (List.dropWhile_subset _ hmem)
  exact SymbolName.not_mem_swap (by decide) stored hslashed

/-- It does not start with a slash. -/
theorem not_slash_prefix_entryName (stored : String) : ¬['/'] <+: (entryName stored).toList := by
  rw [toList_entryName]
  exact (exists_slashes_append_dropWhile _).2

/-- The names that stay as they are have no backslash and start neither with a slash nor with
`./`. -/
theorem entryName_eq_self_iff : entryName name = name ↔
    '\\' ∉ name.toList ∧ ¬['/'] <+: name.toList ∧ ¬['.', '/'] <+: name.toList := by
  constructor
  · intro h
    have hback : '\\' ∉ name.toList := h ▸ backslash_not_mem_entryName name
    refine ⟨hback, h ▸ not_slash_prefix_entryName name, ?_⟩
    -- what a cut leaves is an end of the text, so the first cut has taken off nothing
    have hcut := toList_entryName name
    rw [h, slashed_of_not_mem hback] at hcut
    have hsuffix := List.dropWhile_suffix (· == '/') (l := dropHere name.toList)
    rw [← hcut] at hsuffix
    rw [← (dropHere_suffix name.toList).eq_of_length_le hsuffix.length_le]
    exact (exists_heres_append_dropHere name.toList).2
  · rintro ⟨hback, hroot, hhere⟩
    rw [← String.toList_inj, toList_entryName, slashed_of_not_mem hback,
      dropHere_of_not_prefix hhere]
    exact dropWhile_slashes 0 hroot

/-- A stored path buries a `./`: with slashes for backslashes, one stands behind slashes that the
path starts with, or behind slashes that follow other `./` there. -/
def Buries (stored : String) : Prop :=
  ∃ count slashes rest, slashes ≠ 0 ∧
    slashed stored = heres count ++ (List.replicate slashes '/' ++ '.' :: '/' :: rest)

/-- The name of an entry starts with `./` if its path buries one, and only then. -/
theorem here_prefix_entryName_iff : ['.', '/'] <+: (entryName stored).toList ↔ Buries stored := by
  obtain ⟨⟨count, hcount⟩, hnot⟩ := exists_heres_append_dropHere (slashed stored)
  obtain ⟨⟨slashes, hslashes⟩, -⟩ := exists_slashes_append_dropWhile (dropHere (slashed stored))
  rw [toList_entryName]
  constructor
  · rintro ⟨rest, hrest⟩
    rw [← hrest] at hslashes
    refine ⟨count, slashes, rest, ?_, ?_⟩
    · rintro rfl
      exact hnot ⟨rest, hslashes⟩
    · rw [← hcount, ← hslashes]
      rfl
  · rintro ⟨count, slashes, rest, hne, hstored⟩
    obtain ⟨more, rfl⟩ := Nat.exists_eq_succ_of_ne_zero hne
    have hcut : dropHere (slashed stored) =
        List.replicate (more + 1) '/' ++ '.' :: '/' :: rest := by
      rw [hstored, dropHere_heres, dropHere_of_not_prefix]
      rw [List.replicate_succ, List.cons_append, List.cons_prefix_cons]
      exact fun h => absurd h.1 (by decide)
    rw [hcut, dropWhile_slashes _ fun h => absurd (List.cons_prefix_cons.1 h).1 (by decide)]
    exact List.prefix_append ['.', '/'] rest

/-- A name that starts with `./` is refused by all look-ups. -/
theorem refuses_of_here_prefix (h : ['.', '/'] <+: name.toList) (t : FileTree) (s : LookupState)
    (r : Registry) : r.Refuses t s name := by
  refine Registry.refuses_of_not_staysBelow (Path.strays_iff.1 (Or.inr (Or.inr (Or.inl ?_)))) t s r
  obtain ⟨rest, hrest⟩ := h
  rw [Path.components, ← hrest]
  rfl

/-- What the name of an entry is like that is stored under a path. -/
structure Names (stored name : String) : Prop where
  /-- The name has no backslash. -/
  backslashless : '\\' ∉ name.toList
  /-- It does not start with a slash. -/
  rootless : ¬['/'] <+: name.toList
  /-- It starts with `./` if the path buries one, and only then. -/
  here_iff : ['.', '/'] <+: name.toList ↔ Buries stored
  /-- It is its own name if the path buries none, and only then. -/
  settled_iff : entryName name = name ↔ ¬Buries stored
  /-- If the path buries a `./`, all look-ups refuse the name. -/
  refused : Buries stored → ∀ t s r, Registry.Refuses t s r name

theorem names_entryName (stored : String) : Names stored (entryName stored) where
  backslashless := backslash_not_mem_entryName stored
  rootless := not_slash_prefix_entryName stored
  here_iff := here_prefix_entryName_iff
  settled_iff := by
    rw [entryName_eq_self_iff, ← here_prefix_entryName_iff]
    exact ⟨fun h => h.2.2, fun h =>
      ⟨backslash_not_mem_entryName stored, not_slash_prefix_entryName stored, h⟩⟩
  refused h := refuses_of_here_prefix (here_prefix_entryName_iff.2 h)

end Names

/-- The paths that the file entries among some members are stored under. -/
def storedPaths (ms : List Tar.Member) : List String :=
  (ms.filter (·.isFile)).map fun m => Text.Utf8.decodeLenient m.name

theorem map_storedPaths_of_file {m : Tar.Member} (h : m.isFile = true) (ms : List Tar.Member) :
    (storedPaths (m :: ms)).map entryName = memberName m :: (storedPaths ms).map entryName := by
  rw [storedPaths, List.filter_cons_of_pos h]
  rfl

theorem storedPaths_of_not_file {m : Tar.Member} (h : m.isFile = false) (ms : List Tar.Member) :
    storedPaths (m :: ms) = storedPaths ms := by
  rw [storedPaths, List.filter_cons_of_neg (by simp [h])]
  rfl

/-- A scan takes the names that the stored paths give, as long as they start with the prefix. -/
theorem map_fst_leadingOf {before : String} {complete : Bool} {ms : List Tar.Member}
    {es : List Entry} (h : leadingOf before complete ms = .ok es) :
    es.map (·.1) = ((storedPaths ms).map entryName).takeWhile fun name =>
      before.toList.isPrefixOf name.toList := by
  induction ms generalizing es with
  | nil =>
    cases complete with
    | false => cases h
    | true =>
      obtain rfl := Except.ok.inj h
      rfl
  | cons m ms ih =>
    cases hfile : m.isFile with
    | false =>
      rw [leadingOf, hfile] at h
      rw [storedPaths_of_not_file hfile]
      exact ih h
    | true =>
      rw [map_storedPaths_of_file hfile, List.takeWhile_cons]
      cases hunder : before.toList.isPrefixOf (memberName m).toList with
      | false =>
        rw [leadingOf, hfile, hunder] at h
        obtain rfl := Except.ok.inj h
        rfl
      | true =>
        obtain ⟨data, rest, -, hrest, rfl⟩ := (leadingOf_cons_of_file hfile hunder).1 h
        rw [if_pos rfl, ← ih hrest]
        rfl

/-- An index has the names that the stored paths give. -/
theorem map_fst_entriesOf {complete : Bool} {ms : List Tar.Member} {es : List Entry}
    (h : entriesOf complete ms = .ok es) : es.map (·.1) = (storedPaths ms).map entryName := by
  rw [← leadingOf_empty] at h
  rw [map_fst_leadingOf h, List.takeWhile_eq_self_iff]
  exact fun name _ => List.isPrefixOf_iff_prefix.2 List.nil_prefix

/-- The index and the scans of an archive go by the names that the stored paths of its file entries
give. -/
structure GoesByNames (t : FileTree) (p : Path) : Prop where
  /-- The index has these names, in archive order. -/
  index : ∀ i, ArchiveIndex.ofPath t p = .ok i → ∃ c, contents t p = .ok c ∧
    i.entries.map (·.1) = (storedPaths c.members).map entryName
  /-- A scan has those of them that stand in front of the first one outside its prefix. -/
  scan : ∀ before es, scanLeading t p before = .ok es → ∃ c, contents t p = .ok c ∧
    es.map (·.1) = ((storedPaths c.members).map entryName).takeWhile fun name =>
      before.toList.isPrefixOf name.toList

theorem goesByNames (t : FileTree) (p : Path) : GoesByNames t p where
  index i hi := by
    obtain ⟨c, es, hc, hes, rfl⟩ := ArchiveIndex.ofPath_eq_ok_iff.1 hi
    exact ⟨c, hc, map_fst_entriesOf hes⟩
  scan before es h := by
    obtain ⟨c, hc, hes⟩ := scanLeading_eq_ok_iff.1 h
    exact ⟨c, hc, map_fst_leadingOf hes⟩

/-- Whatever an archive holds, its index and its scans go by the names of its file entries. A name
has no backslash and does not start with a slash. If the stored path buries a `./`, the name starts
with that, changes when it is cut again and is refused by all look-ups; else it is its own name. -/
theorem names_unless_buried (t : FileTree) (p : Path) :
    GoesByNames t p ∧ ∀ stored, Names stored (entryName stored) :=
  ⟨goesByNames t p, names_entryName⟩

end Archive

/-- An archive has what its view has. -/
theorem Origin.holds_fst_of_archive {t : FileTree} {o : Origin} {s : LookupState}
    {resource : String} (hkind : o.kind = .archive) (hb : Path.staysBelow resource = true) :
    (o.holds t resource s).1 = (o.view t s).1.any (·.contains resource) := by
  rw [holds, hb, if_neg (by decide), hkind]

namespace BuriedDot

open OneArchive

/-- A file whose path has a `./` behind a slash. -/
def symbolFile : PackedFile := ("/./A.sym".toUTF8.data.toList, "1".toUTF8.data.toList)

theorem fitting_symbolFile : Fitting [symbolFile] :=
  fitting_of_fits (List.forall_mem_singleton.2 ⟨by decide, by decide, by decide⟩)
    (by decide +kernel) (by decide +kernel)

theorem view_symbolFile :
    (archive.view (treeOf [symbolFile]) .empty).1 = some (viewOf [symbolFile]) := by
  have hstands : archive.Stands (treeOf [symbolFile]) :=
    Origin.stands_of_ofPath (fun _ => rfl) fitting_symbolFile.origin
  rw [(hstands.view (LookupState.faithful_empty _)).1, fitting_symbolFile.ofPath]
  rfl

/-- The name of the file starts with `./`, is not its own name, and leaves the file out of reach: it
is found under no resource name. -/
theorem buried_dot_resurfaces :
    Archive.entryName "/./A.sym" = "./A.sym" ∧ Archive.entryName "./A.sym" = "A.sym" ∧
      ArchiveIndex.ofPath (treeOf [symbolFile]) archive.location = .ok (viewOf [symbolFile]) ∧
      (viewOf [symbolFile]).entries.map (·.1) = ["./A.sym"] ∧
      ∀ resource,
        ((Registry.only archive).find? (treeOf [symbolFile]) resource .empty).1 = none := by
  have hnames : (viewOf [symbolFile]).entries.map (·.1) = ["./A.sym"] := by decide +kernel
  refine ⟨by decide, by decide, fitting_symbolFile.ofPath, hnames, fun resource => ?_⟩
  rw [← Option.not_isSome_iff_eq_none, Bool.not_eq_true, Registry.isSome_find?_only]
  cases hb : Path.staysBelow resource with
  | false => rw [Origin.holds_of_not_staysBelow hb]
  | true =>
    -- the only name that the index has does not stay below the archive
    have hmissing : (viewOf [symbolFile]).contains resource = false := by
      refine eq_false_of_ne_true fun hcontains => ?_
      obtain ⟨e, he, rfl⟩ := ArchiveIndex.contains_iff.1 hcontains
      have hname : e.1 ∈ (viewOf [symbolFile]).entries.map (·.1) := List.mem_map_of_mem he
      rw [hnames, List.mem_singleton] at hname
      rw [hname] at hb
      exact absurd hb (by decide)
    rw [Origin.holds_fst_of_archive rfl hb, view_symbolFile, Option.any_some, hmissing]

end BuriedDot

end Overlay
