import Overlay.Archive
import Overlay.Proofs.Spelling
import Overlay.Proofs.Views

/-!
# Origins with given files

What is read from a directory and from an archive whose files are known. A directory has a resource
if the resource's name spells one of its files and the path is not too long; an archive has it if
the name is the written path of one of its files.
-/

namespace Overlay

open FileTree

namespace FileTree

variable {t : FileTree} {place : Place} {files : List (Place × ByteArray)} {resource : String}

/-- A directory with some files below it, and nothing else but directories. -/
structure Holds (t : FileTree) (place : Place) (files : List (Place × ByteArray)) : Prop where
  /-- The directory is where its path leads to. -/
  settled : Settled t place
  /-- Each file stands at its place below the directory. -/
  file : ∀ f ∈ files, Settled t (place ++ f.1) ∧ t.nodeAt? (place ++ f.1) = some (.file f.2)
  /-- No file's name holds a null character. -/
  nullless : ∀ f ∈ files, ∀ name ∈ f.1, Char.ofNat 0 ∉ name.toList
  /-- What stands below the directory is a directory or one of the files. -/
  only : ∀ below n, below ≠ [] → t.nodeAt? (place ++ below) = some n →
    n = .directory ∨ ∃ content, n = .file content ∧ (below, content) ∈ files

/-- What stands at a place below the root is one of the nodes. -/
theorem mem_nodes_of_nodeAt? {n : Node} (hne : place ≠ []) (h : t.nodeAt? place = some n) :
    (place, n) ∈ t.nodes := by
  rw [nodeAt?, if_neg hne] at h
  obtain ⟨node, hfind, rfl⟩ := Option.map_eq_some_iff.1 h
  have hplace : node.1 = place := by simpa using List.find?_some hfind
  rw [← hplace]
  exact List.mem_of_find?_eq_some hfind

/-- A path to a file leads to a node that is no directory. -/
theorem exists_node_of_isFile {p : Path} (h : t.isFile p = true) :
    ∃ n, t.node p = .ok n ∧ n ≠ .directory := by
  unfold isFile at h
  split at h
  · exact ⟨.file _, ‹_›, nofun⟩
  · exact ⟨.unreadable, ‹_›, nofun⟩
  · cases h

/-- A path to a node is not too long. -/
theorem short_of_node {p : Path} {n : Node} (h : t.node p = .ok n) :
    p.text.utf8ByteSize ≤ pathLimit := by
  unfold node at h
  split at h
  · cases h
  · rename_i hshort
    exact Nat.le_of_not_lt hshort

namespace Holds

/-- Below the directory are no links. -/
theorem unlinked (h : Holds t place files) (hd : t.directoryAt place = true) (below : Place)
    (target : Path) : t.nodeAt? (place ++ below) ≠ some (.link target) := by
  intro hn
  by_cases hne : below = []
  · rw [hne, List.append_nil] at hn
    rw [directoryAt, hn] at hd
    cases hd
  · rcases h.only below _ hne hn with he | ⟨content, he, -⟩ <;> cases he

/-- What is found below the directory under a resource name stands at the names in it. -/
theorem resolve_join (h : Holds t place files) (hd : t.directoryAt place = true)
    (hb : Path.staysBelow resource = true) {q : Place}
    (hq : t.resolve ((pathOf place).join resource) = .ok q) :
    q = place ++ movesOf ((Path.partsOf resource).map String.ofList) := by
  have hup : ".." ∉ (Path.partsOf resource).map String.ofList := by
    intro hmem
    obtain ⟨part, hpart, he⟩ := List.mem_map.1 hmem
    obtain rfl : part = ['.', '.'] := by
      rw [← String.toList_inj, String.toList_ofList] at he
      exact he
    exact (Path.staysBelow_iff.1 hb).2 hpart
  have hwalk := walk_of_resolve hq
  rw [h.settled.startOf_join hb, h.settled.steps_join hb] at hwalk
  obtain ⟨follow, hfollow⟩ := exists_walkWith t linkLimit
  rw [hfollow, h.settled.walkWith_append] at hwalk
  have := walkWith_unlinked (h.unlinked hd) hup [] (by rwa [List.append_nil])
  rwa [List.nil_append] at this

/-- A file that a resource name finds in the directory is one that it spells. -/
theorem spells_of_node (h : Holds t place files) (hd : t.directoryAt place = true)
    (hb : Path.staysBelow resource = true) {n : Node}
    (hn : t.node ((pathOf place).join resource) = .ok n) (hfile : n ≠ .directory) :
    ∃ content, n = .file content ∧ ∃ f ∈ files, f.2 = content ∧ Path.Spells resource f.1 := by
  obtain ⟨q, hq, hat⟩ := nodeAt?_of_node hn
  rw [h.resolve_join hd hb hq] at hat
  have hne : movesOf ((Path.partsOf resource).map String.ofList) ≠ [] := by
    intro he
    rw [he, List.append_nil] at hat
    rw [directoryAt, hat] at hd
    cases n with
    | directory => exact hfile rfl
    | _ => cases hd
  rcases h.only _ n hne hat with he | ⟨content, rfl, hmem⟩
  · exact absurd he hfile
  · refine ⟨content, rfl, _, hmem, rfl, (movesOf_partsOf resource).symm,
      (Path.staysBelow_iff.1 hb).1, ?_⟩
    have hisFile : t.isFile ((pathOf place).join resource) = true := by rw [isFile, hn]
    intro part hpart
    obtain ⟨front, hparts⟩ := List.getLast?_eq_some_iff.1 hpart
    exact h.settled.not_idle_of_isFile (Path.head?_ne_of_staysBelow hb) hisFile hparts

/-- A name that spells a file stays below the directory. -/
theorem staysBelow (h : Holds t place files) {f : Place × ByteArray} (hf : f ∈ files)
    (hs : Path.Spells resource f.1) : Path.staysBelow resource = true := by
  refine Path.staysBelow_iff.2 ⟨hs.first, fun hup => ?_⟩
  have hmem : ['.', '.'] ∈ f.1.map String.toList := by
    rw [← hs.names]
    exact List.mem_filter.2 ⟨hup, rfl⟩
  obtain ⟨name, hname, he⟩ := List.mem_map.1 hmem
  have hplain := (h.file f hf).1.isPlain name (List.mem_append_right _ hname)
  exact hplain.ne_up (String.toList_inj.1 he)

/-- The path of a spelled file holds no null character. -/
theorem nullless_join (h : Holds t place files) (hp : t.resolve (pathOf place) = .ok place)
    {f : Place × ByteArray} (hf : f ∈ files) (hs : Path.Spells resource f.1) :
    Char.ofNat 0 ∉ ((pathOf place).join resource).text.toList := by
  have hplace : Char.ofNat 0 ∉ (pathOf place).text.toList := by
    intro hnull
    rw [resolve, if_pos (by simpa using hnull)] at hp
    cases hp
  rw [h.settled.join_pathOf (Path.head?_ne_of_staysBelow (h.staysBelow hf hs)), Path.toList_absolute,
    List.mem_cons]
  rintro (he | hnull)
  · cases he
  · rcases Text.mem_joined hnull with he | ⟨part, hpart, hin⟩
    · cases he
    · rcases List.mem_append.1 hpart with hmem | hmem
      · refine hplace ?_
        rw [toList_pathOf]
        exact List.mem_cons_of_mem _ (Text.mem_joined_of_mem '/' hmem hin)
      · cases hidle : Path.isIdle part with
        | true => rcases Path.isIdle_iff.1 hidle with rfl | rfl <;> simp at hin
        | false =>
          have hname : part ∈ f.1.map String.toList := by
            rw [← hs.names]
            exact List.mem_filter.2 ⟨hmem, by rw [hidle]; rfl⟩
          obtain ⟨name, hin', rfl⟩ := List.mem_map.1 hname
          exact h.nullless f hf name hin' hin

/-- A file is found in the directory under every name that spells it, if the path is not too
long. -/
theorem node_of_spells (h : Holds t place files) (hp : t.resolve (pathOf place) = .ok place)
    {f : Place × ByteArray} (hf : f ∈ files) (hs : Path.Spells resource f.1)
    (hshort : ((pathOf place).join resource).text.utf8ByteSize ≤ pathLimit) :
    t.node ((pathOf place).join resource) = .ok (.file f.2) := by
  have hb := h.staysBelow hf hs
  obtain ⟨hsettled, hat⟩ := h.file f hf
  have hlast : ∀ step ∈ ((Path.partsOf resource).map String.ofList).getLast?,
      Path.isIdle step.toList = false := by
    intro step hstep
    rw [List.getLast?_map] at hstep
    obtain ⟨part, hpart, rfl⟩ := Option.map_eq_some_iff.1 hstep
    rw [String.toList_ofList]
    exact hs.last part hpart
  have hwalk : t.walk linkLimit [] (place ++ (Path.partsOf resource).map String.ofList) =
      .ok (place ++ f.1) := by
    obtain ⟨follow, hfollow⟩ := exists_walkWith t linkLimit
    rw [hfollow, h.settled.walkWith_append, Settled.walkWith_spelled
      ((movesOf_of_spells hs).symm ▸ hsettled) hlast, movesOf_of_spells hs]
  have htext : ((pathOf place).join resource).text ≠ "" := by
    rw [h.settled.join_pathOf (Path.head?_ne_of_staysBelow hb), ne_eq, ← String.toList_inj,
      Path.toList_absolute]
    exact List.cons_ne_nil _ _
  have hres : t.resolve ((pathOf place).join resource) = .ok (place ++ f.1) := by
    rw [resolve, if_neg (by simpa using h.nullless_join hp hf hs), if_neg htext,
      h.settled.startOf_join hb, h.settled.steps_join hb, hwalk]
  rw [node, if_neg (Nat.not_lt.2 hshort), hres]
  dsimp only
  rw [hat]

/-- The place of a file is not that of the directory, and its names are plain. -/
theorem plain (h : Holds t place files) (hd : t.directoryAt place = true)
    {f : Place × ByteArray} (hf : f ∈ files) : f.1 ≠ [] ∧ ∀ name ∈ f.1, IsPlain name := by
  obtain ⟨hsettled, hat⟩ := h.file f hf
  constructor
  · intro he
    rw [he, List.append_nil] at hat
    rw [directoryAt, hat] at hd
    cases hd
  · exact fun name hname => hsettled.isPlain name (List.mem_append_right _ hname)

/-- The written path of a file spells it. -/
theorem spells_written (h : Holds t place files) (hd : t.directoryAt place = true)
    {f : Place × ByteArray} (hf : f ∈ files) : Path.Spells (Path.written f.1) f.1 :=
  Path.spells_written (h.plain hd hf).1 (h.plain hd hf).2

/-- Files that one name spells have the same content. -/
theorem content_eq (h : Holds t place files) {f g : Place × ByteArray} (hf : f ∈ files)
    (hg : g ∈ files) (he : f.1 = g.1) : f.2 = g.2 := by
  have hat := (h.file f hf).2
  rw [he, (h.file g hg).2] at hat
  exact (Node.file.inj (Option.some.inj hat)).symm

end Holds

end FileTree

namespace Origin

/-- An origin that is a directory with some files. -/
structure Lays (t : FileTree) (o : Origin) (place : Place) (files : List (Place × ByteArray)) :
    Prop where
  /-- The origin stands in the tree. -/
  stands : o.Stands t
  /-- It is a directory. -/
  kind_eq : o.kind = .directory
  /-- It lies at the place. -/
  location_eq : o.location = pathOf place
  /-- It has the files. -/
  holds : t.Holds place files

variable {t : FileTree} {o : Origin} {place : Place} {files : List (Place × ByteArray)}
  {resource : String} {s : LookupState}

namespace Lays

/-- The directory's path leads to its place, where a directory stands. -/
theorem resolve (h : o.Lays t place files) :
    t.resolve (pathOf place) = .ok place ∧ t.directoryAt place = true := by
  have hkind := h.stands.kind_eq
  have hd : t.isDirectory (pathOf place) = true := by
    rw [h.kind_eq, h.location_eq] at hkind
    split at hkind
    · assumption
    · cases hkind
  unfold isDirectory at hd
  split at hd
  · rename_i hn
    obtain ⟨q, hq, hat⟩ := nodeAt?_of_node hn
    rcases h.holds.settled.resolve_pathOf with hr | hr
    · rw [hr] at hq
      obtain rfl := Except.ok.inj hq
      exact ⟨hr, by rw [directoryAt, hat]⟩
    · rw [hr] at hq
      cases hq
  · cases hd

/-- A file is read under every name that spells it, if the path is not too long. -/
theorem readResource_of_spells (h : o.Lays t place files) {f : Place × ByteArray} (hf : f ∈ files)
    (hs : Path.Spells resource f.1)
    (hshort : (o.location.join resource).text.utf8ByteSize ≤ pathLimit) (s : LookupState) :
    (o.readResource t resource s).1 = .ok (some ⟨.file (o.location.join resource), f.2⟩) := by
  have hn : t.node (o.location.join resource) = .ok (.file f.2) := by
    rw [h.location_eq] at hshort ⊢
    exact h.holds.node_of_spells h.resolve.1 hf hs hshort
  have hfile : t.isFile (o.location.join resource) = true := by rw [isFile, hn]
  have hread : t.read (o.location.join resource) = .ok f.2 := by rw [FileTree.read, hn]
  rw [readResource, h.holds.staysBelow hf hs, if_neg (by decide), h.kind_eq]
  dsimp only
  rw [hfile, if_neg (by decide), hread]

/-- Nothing is read under a name that spells no file, or under one that makes the path too long. -/
theorem readResource_of_unspelled (h : o.Lays t place files)
    (hs : ∀ f ∈ files, Path.Spells resource f.1 →
      pathLimit < (o.location.join resource).text.utf8ByteSize) (s : LookupState) :
    (o.readResource t resource s).1 = .ok none := by
  rw [readResource]
  split
  · rfl
  · rename_i hb
    have hb' : Path.staysBelow resource = true := by simpa using hb
    have hfile : t.isFile (o.location.join resource) = false := by
      refine eq_false_of_ne_true fun hfile => ?_
      obtain ⟨n, hn, hne⟩ := exists_node_of_isFile hfile
      have hshort := short_of_node hn
      rw [h.location_eq] at hn
      obtain ⟨-, -, f, hf, -, hspells⟩ := h.holds.spells_of_node h.resolve.2 hb' hn hne
      exact absurd (hs f hf hspells) (Nat.not_lt.2 hshort)
    rw [h.kind_eq]
    dsimp only
    rw [hfile]
    rfl

end Lays

end Origin

/-- An archive whose file entries are some files, each under its path as it is written. -/
structure Tar.Contents.Stores (c : Tar.Contents) (files : List (Place × ByteArray)) : Prop where
  /-- The archive can be read to its end. -/
  complete : c.complete = true
  /-- Each file entry is one of the files. -/
  only : ∀ m ∈ c.members, m.isFile = true →
    ∃ f ∈ files, Archive.memberName m = Path.written f.1 ∧ m.content? = some f.2
  /-- Each file has an entry. -/
  every : ∀ f ∈ files, ∃ m ∈ c.members, m.isFile = true ∧
    Archive.memberName m = Path.written f.1 ∧ m.content? = some f.2

/-- The entries of an archive are those of its file members. -/
theorem Archive.entriesOf_eq {ms : List Tar.Member}
    (h : ∀ m ∈ ms, m.isFile = true → m.content?.isSome = true) :
    ∃ es, entriesOf true ms = .ok es ∧ ∀ e, e ∈ es ↔
      ∃ m ∈ ms, m.isFile = true ∧ memberName m = e.1 ∧ m.content? = some e.2 := by
  induction ms with
  | nil => exact ⟨[], rfl, by simp⟩
  | cons m ms ih =>
    obtain ⟨es, hes, hmem⟩ := ih fun m' hm' => h m' (List.mem_cons_of_mem m hm')
    rw [entriesOf]
    cases hfile : m.isFile with
    | false =>
      refine ⟨es, hes, fun e => ?_⟩
      rw [hmem]
      simp [hfile]
    | true =>
      obtain ⟨content, hcontent⟩ := Option.isSome_iff_exists.1 (h m List.mem_cons_self hfile)
      refine ⟨(memberName m, content) :: es, by rw [hcontent, hes]; rfl, fun e => ?_⟩
      have hhead : e = (memberName m, content) ↔
          m.isFile = true ∧ memberName m = e.1 ∧ m.content? = some e.2 := by
        rw [hcontent, Option.some.injEq, hfile]
        constructor
        · rintro rfl
          exact ⟨rfl, rfl, rfl⟩
        · rintro ⟨-, hname, hdata⟩
          exact Prod.ext hname.symm hdata.symm
      rw [List.mem_cons, hmem, hhead]
      simp only [List.mem_cons, exists_eq_or_imp]

/-- An entry has the content that all entries of its name have. -/
theorem ArchiveIndex.read?_of_mem {i : ArchiveIndex} {e : Archive.Entry} (h : e ∈ i.entries)
    (hsame : ∀ e' ∈ i.entries, e'.1 = e.1 → e'.2 = e.2) : i.read? e.1 = some e.2 := by
  rw [read?]
  cases hfind : i.entries.reverse.find? (·.1 == e.1) with
  | none =>
    have := List.find?_eq_none.1 hfind e (List.mem_reverse.2 h)
    simp at this
  | some e' =>
    have hname : e'.1 = e.1 := by simpa using List.find?_some hfind
    have hmem : e' ∈ i.entries := List.mem_reverse.1 (List.mem_of_find?_eq_some hfind)
    rw [Option.map_some, hsame e' hmem hname]

/-- A name without an entry has no content. -/
theorem ArchiveIndex.read?_of_forall_ne {i : ArchiveIndex} {name : String}
    (h : ∀ e ∈ i.entries, e.1 ≠ name) : i.read? name = none := by
  rw [read?, Option.map_eq_none_iff, List.find?_eq_none]
  intro e he
  simpa using h e (List.mem_reverse.1 he)

namespace Origin

/-- An origin that is an archive with some files. -/
structure Packs (t : FileTree) (o : Origin) (files : List (Place × ByteArray)) : Prop where
  /-- The origin stands in the tree. -/
  stands : o.Stands t
  /-- It is an archive. -/
  kind_eq : o.kind = .archive
  /-- Its file entries are the files. -/
  stores : ∃ c, Archive.contents t o.location = .ok c ∧ c.Stores files

variable {t : FileTree} {o : Origin} {files : List (Place × ByteArray)} {resource : String}
  {s : LookupState}

/-- The index of an archive with some files has their entries. -/
theorem Packs.ofPath (h : o.Packs t files) :
    ∃ i, ArchiveIndex.ofPath t o.location = .ok i ∧
      ∀ e, e ∈ i.entries ↔ ∃ f ∈ files, e = (Path.written f.1, f.2) := by
  obtain ⟨c, hc, hstores⟩ := h.stores
  have hcontents : ∀ m ∈ c.members, m.isFile = true → m.content?.isSome = true := by
    intro m hm hfile
    obtain ⟨f, -, -, hcontent⟩ := hstores.only m hm hfile
    rw [hcontent]
    rfl
  obtain ⟨es, hes, hmem⟩ := Archive.entriesOf_eq hcontents
  rw [← hstores.complete] at hes
  refine ⟨⟨o.location, es⟩, ?_, fun e => ?_⟩
  · exact ArchiveIndex.ofPath_eq_ok_iff.2 ⟨c, es, hc, hes, rfl⟩
  · rw [show e ∈ (⟨o.location, es⟩ : ArchiveIndex).entries ↔ e ∈ es from Iff.rfl, hmem]
    constructor
    · rintro ⟨m, hm, hfile, hname, hcontent⟩
      obtain ⟨f, hf, hname', hcontent'⟩ := hstores.only m hm hfile
      refine ⟨f, hf, Prod.ext (hname.symm.trans hname') ?_⟩
      exact Option.some.inj (hcontent.symm.trans hcontent')
    · rintro ⟨f, hf, rfl⟩
      obtain ⟨m, hm, hfile, hname, hcontent⟩ := hstores.every f hf
      exact ⟨m, hm, hfile, hname, hcontent⟩

/-- What is read from an archive with some files. -/
theorem Packs.readResource (h : o.Packs t files) (hs : s.Faithful t)
    (hb : Path.staysBelow resource = true) :
    ∃ i : ArchiveIndex, (∀ e, e ∈ i.entries ↔ ∃ f ∈ files, e = (Path.written f.1, f.2)) ∧
      (o.readResource t resource s).1 =
        .ok ((i.read? resource).map fun bytes => ⟨o.locate resource, bytes⟩) := by
  obtain ⟨i, hi, hmem⟩ := h.ofPath
  refine ⟨i, hmem, ?_⟩
  have hview := (h.stands.view hs).1
  rw [Origin.readResource, hb, if_neg (by decide), h.kind_eq]
  dsimp only
  rw [hview, hi]
  rfl

/-- An archive reads a file under its written path. -/
theorem Packs.readResource_of_written (h : o.Packs t files) (hs : s.Faithful t)
    {f : Place × ByteArray} (hb : Path.staysBelow (Path.written f.1) = true) (hf : f ∈ files)
    (hsame : ∀ g ∈ files, Path.written g.1 = Path.written f.1 → g.2 = f.2) :
    (o.readResource t (Path.written f.1) s).1 =
      .ok (some ⟨o.locate (Path.written f.1), f.2⟩) := by
  obtain ⟨i, hmem, hread⟩ := h.readResource hs hb
  have hfound : i.read? (Path.written f.1) = some f.2 := by
    refine ArchiveIndex.read?_of_mem (e := (Path.written f.1, f.2)) ((hmem _).2 ⟨f, hf, rfl⟩) ?_
    intro e he hname
    obtain ⟨g, hg, rfl⟩ := (hmem e).1 he
    exact hsame g hg hname
  rw [hread, hfound]
  rfl

/-- An archive reads nothing under a name that is not the written path of a file. -/
theorem Packs.readResource_of_unwritten (h : o.Packs t files) (hs : s.Faithful t)
    (hr : ∀ f ∈ files, resource ≠ Path.written f.1) :
    (o.readResource t resource s).1 = .ok none := by
  cases hb : Path.staysBelow resource with
  | false =>
    rw [Origin.readResource, hb]
    rfl
  | true =>
    obtain ⟨i, hmem, hread⟩ := h.readResource hs hb
    have hnone : i.read? resource = none := by
      refine ArchiveIndex.read?_of_forall_ne fun e he hname => ?_
      obtain ⟨f, hf, rfl⟩ := (hmem e).1 he
      exact hr f hf hname.symm
    rw [hread, hnone]
    rfl

end Origin

end Overlay
