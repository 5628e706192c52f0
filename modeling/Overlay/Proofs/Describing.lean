import Overlay.Proofs.Ensemble
import Overlay.Proofs.Fallback
import Overlay.Proofs.Lookups

/-!
# When views are opened and descriptors are read

A live view and a kept descriptor are read from the files once and stay. Whatever happens to a
pipeline, its table of views gains only views of its origins, and its descriptors gain only what is
read at a path that is asked for, or that a new symbol comes from. Each is read from the files of
that moment; a descriptor may be read through the views that are live by then.
-/

namespace Overlay

namespace ArchiveTable

/-- What a table of views becomes through looking at some origins. -/
structure Opens (t : FileTree) (os : List Origin) (a a' : ArchiveTable) : Prop where
  /-- A live view stays. -/
  kept : ∀ q i, a.get? q = some i → a'.get? q = some i
  /-- A new view is that of one of the origins. -/
  opened : ∀ q i, a.get? q = none → a'.get? q = some i →
    ∃ o ∈ os, o.location.components = q.components ∧ ArchiveIndex.ofPath t o.location = .ok i

variable {t : FileTree} {os : List Origin} {a a₁ a₂ : ArchiveTable}

namespace Opens

theorem refl (t : FileTree) (os : List Origin) (a : ArchiveTable) : Opens t os a a where
  kept _ _ h := h
  opened q i hn h := by
    rw [hn] at h
    cases h

theorem trans (h : Opens t os a a₁) (h' : Opens t os a₁ a₂) : Opens t os a a₂ where
  kept q i hi := h'.kept q i (h.kept q i hi)
  opened q i hn hi := by
    cases h₁ : a₁.get? q with
    | none => exact h'.opened q i h₁ hi
    | some j =>
      have hj := h'.kept q j h₁
      rw [hi] at hj
      obtain rfl := Option.some.inj hj
      exact h.opened q i hn h₁

/-- Looking at one of the origins opens at most its view. -/
theorem view {o : Origin} (ho : o ∈ os) (s : LookupState) :
    Opens t os s.archives (o.view t s).2.archives := by
  unfold Origin.view
  rcases openView_cases t o.location s.archives with
      ⟨i, hg, he⟩ | ⟨e, hg, hi, he⟩ | ⟨i, hg, hi, he⟩ <;> rw [he]
  · exact .refl t os _
  · exact .refl t os _
  · refine ⟨fun q j hj => ?_, fun q j hn hj => ?_⟩
    · refine (get?_insertIfAbsent _ _ q i).trans ?_
      split
      · rename_i hc
        rw [get?, hc, ← get?, hg] at hj
        cases hj
      · exact hj
    · replace hj : (s.archives.insertIfAbsent o.location i).get? q = some j := hj
      rw [get?_insertIfAbsent, hg] at hj
      split at hj
      · rename_i hc
        obtain rfl : i = j := Option.some.inj hj
        exact ⟨o, ho, hc.symm, hi⟩
      · rw [hn] at hj
        cases hj

end Opens

end ArchiveTable

namespace Registry

variable {t : FileTree} {r : Registry}

/-- Reading a resource opens views of the registered origins only. -/
theorem opens_resolve? (t : FileTree) (r : Registry) (resource : String) (s : LookupState) :
    s.archives.Opens t r.order (r.resolve? t resource s).2.archives :=
  keeps_resolveIn (P := (s.archives.Opens t r.order ·.archives))
    (fun _ ho s' h => h.trans (.view ho s')) resource (.refl t r.order s.archives)

/-- Looking for a resource opens views of the registered origins only. -/
theorem opens_find? (t : FileTree) (r : Registry) (resource : String) (s : LookupState) :
    s.archives.Opens t r.order (r.find? t resource s).2.archives := by
  rw [find?_snd]
  exact r.opens_resolve? t resource s

/-- Looking for all copies of a resource opens views of the registered origins only. -/
theorem opens_findAll (t : FileTree) (r : Registry) (resource : String) (s : LookupState) :
    s.archives.Opens t r.order (r.findAll t resource s).2.archives :=
  keeps_findAllIn (P := (s.archives.Opens t r.order ·.archives))
    (fun _ ho s' h => h.trans (.view ho s')) resource (.refl t r.order s.archives)

/-- Reading all copies of a resource opens views of the registered origins only. -/
theorem opens_resolveAll (t : FileTree) (r : Registry) (resource : String) (s : LookupState) :
    s.archives.Opens t r.order (r.resolveAll t resource s).2.archives :=
  keeps_resolveAllIn (P := (s.archives.Opens t r.order ·.archives))
    (fun _ ho s' h => h.trans (.view ho s')) resource (.refl t r.order s.archives)

end Registry

/-- Of an archive that can be indexed the leading entries are those in front of the first one
outside the prefix. -/
theorem Archive.leadingOf_of_entriesOf {before : String} {complete : Bool} {ms : List Tar.Member}
    {es : List Entry} (h : entriesOf complete ms = .ok es) :
    leadingOf before complete ms =
      .ok (es.takeWhile fun e => before.toList.isPrefixOf e.1.toList) := by
  induction ms generalizing es with
  | nil =>
    cases complete with
    | false => cases h
    | true =>
      obtain rfl := Except.ok.inj h
      rfl
  | cons m ms ih =>
    cases hfile : m.isFile with
    | false =>
      rw [entriesOf, hfile] at h
      rw [leadingOf, hfile]
      exact ih h
    | true =>
      obtain ⟨data, rest, hdata, hrest, rfl⟩ := (entriesOf_cons_of_file hfile).1 h
      rw [List.takeWhile_cons]
      cases hunder : before.toList.isPrefixOf (memberName m).toList with
      | false =>
        rw [leadingOf, hfile, hunder]
        rfl
      | true => exact (leadingOf_cons_of_file hfile hunder).2 ⟨data, _, hdata, ih hrest, rfl⟩

namespace MetadataCache

/-- The descriptor that an origin gets if it is asked for now for the first time: what is read, or
the empty one if it cannot be read. -/
def fresh (t : FileTree) (m : MetadataCache) (a : ArchiveTable) (location : Path) : Descriptor :=
  match m.compute t a location with
  | .ok d => d
  | .error _ => Descriptor.empty

/-- The descriptor of an archive with the entries of a view. It is found among the entries in front
of the first one outside the prefix, with the signers there, or else among all entries. -/
def ofView (m : MetadataCache) (i : ArchiveIndex) : Descriptor :=
  let leading := i.entries.takeWhile fun e => m.directoryPrefix.toList.isPrefixOf e.1.toList
  match m.leadingDescriptor? leading with
  | some data =>
    (Descriptor.parse (Text.Utf8.decodeLenient data)).withSigners (m.leadingSigners leading)
  | none => m.ofIndex i (m.leadingSigners leading)

/-- Where an archive was opened does not matter for its descriptor. -/
theorem ofIndex_congr (m : MetadataCache) {i j : ArchiveIndex} (h : j.entries = i.entries)
    (signers : List String) : m.ofIndex j signers = m.ofIndex i signers := by
  obtain ⟨p, es⟩ := i
  obtain ⟨q, es'⟩ := j
  obtain rfl : es' = es := h
  rfl

theorem ofView_congr (m : MetadataCache) {i j : ArchiveIndex} (h : j.entries = i.entries) :
    m.ofView j = m.ofView i := by
  obtain ⟨p, es⟩ := i
  obtain ⟨q, es'⟩ := j
  obtain rfl : es' = es := h
  rfl

/-- An archive that can be indexed has the descriptor of its view, also if it is read through a
view with the same entries. -/
theorem ofArchive_eq_ofView {t : FileTree} {p : Path} {a : ArchiveTable} {i : ArchiveIndex}
    (hi : ArchiveIndex.ofPath t p = .ok i) (ha : ∀ j, a.get? p = some j → j.entries = i.entries)
    (m : MetadataCache) : m.ofArchive t a p = .ok (m.ofView i) := by
  have hview : ∃ v, a.acquire t p = .ok v ∧ v.index.entries = i.entries := by
    unfold ArchiveTable.acquire
    cases hg : a.get? p with
    | some j => exact ⟨_, rfl, ha j hg⟩
    | none => exact ⟨⟨i, true⟩, by rw [hi]; rfl, rfl⟩
  obtain ⟨v, hv, hentries⟩ := hview
  obtain ⟨c, es, hc, hes, rfl⟩ := ArchiveIndex.ofPath_eq_ok_iff.1 hi
  have hscan : Archive.scanLeading t p m.directoryPrefix = .ok (es.takeWhile fun e =>
      m.directoryPrefix.toList.isPrefixOf e.1.toList) :=
    Archive.scanLeading_eq_ok_iff.2 ⟨c, hc, Archive.leadingOf_of_entriesOf hes⟩
  rw [ofArchive, hscan, ofView]
  dsimp only
  cases m.leadingDescriptor?
      (es.takeWhile fun e => m.directoryPrefix.toList.isPrefixOf e.1.toList) with
  | some data => rfl
  | none =>
    rw [hv]
    exact congrArg Except.ok (m.ofIndex_congr hentries _)

/-- What an archive that can be indexed is described as. -/
theorem fresh_eq_ofView {t : FileTree} {p : Path} {a : ArchiveTable} {i : ArchiveIndex}
    (hd : t.isDirectory p = false) (hi : ArchiveIndex.ofPath t p = .ok i)
    (ha : ∀ j, a.get? p = some j → j.entries = i.entries) (m : MetadataCache) :
    m.fresh t a p = m.ofView i := by
  rw [fresh, compute, hd, if_neg Bool.false_ne_true, ofArchive_eq_ofView hi ha]

variable {t : FileTree} {p : Path} {m : MetadataCache} {s : LookupState}

/-- A descriptor is answered as it is kept, or it is read and kept. -/
theorem descriptorFor_cases (t : FileTree) (p : Path) (m : MetadataCache) (s : LookupState) :
    (∃ d, m.get? p = some d ∧ m.descriptorFor t p s = (d, m, s)) ∨
      m.get? p = none ∧ (m.descriptorFor t p s).1 = m.fresh t s.archives p ∧
        (m.descriptorFor t p s).2.1 = m.keep p (m.fresh t s.archives p) ∧
        (m.descriptorFor t p s).2.2.archives = s.archives := by
  unfold descriptorFor fresh
  cases hg : m.get? p with
  | some d => exact Or.inl ⟨d, rfl, rfl⟩
  | none =>
    right
    cases m.compute t s.archives p with
    | ok d => exact ⟨rfl, rfl, rfl, rfl⟩
    | error e => exact ⟨rfl, rfl, rfl, rfl⟩

/-- The descriptors are kept by the components of paths. -/
theorem get?_keep (m : MetadataCache) (p q : Path) (d : Descriptor) :
    (m.keep p d).get? q = if q.components = p.components then some d else m.get? q :=
  Table.get?_insert ..

end MetadataCache

namespace Pipeline

variable {φ β : Type}

/-- One of the symbols that are defined by then, but not yet, comes from a path. -/
def Sources (s s' : Pipeline φ β) (p : Path) : Prop :=
  ∃ n x, s.defined.get? n = none ∧ s'.defined.get? n = some x ∧ x.codeSource = some p

/-- What the views and descriptors of a pipeline become while the files stay as they are. -/
structure Develops (t : FileTree) (asked : Path → Prop) (s s' : Pipeline φ β) : Prop where
  /-- New views are those of registered origins. -/
  views : s.lookups.archives.Opens t s.registry.order s'.lookups.archives
  /-- Descriptors are looked for where they were. -/
  settings : ∃ ds, s'.metadata = { s.metadata with descriptors := ds }
  /-- A kept descriptor stays. -/
  kept : ∀ q d, s.metadata.get? q = some d → s'.metadata.get? q = some d
  /-- A new descriptor is read at a path that is asked for or that a new symbol comes from. -/
  read : ∀ q d, s.metadata.get? q = none → s'.metadata.get? q = some d →
    ∃ p a, (asked p ∨ s.Sources s' p) ∧ p.components = q.components ∧
      s.lookups.archives.Opens t s.registry.order a ∧
      a.Opens t s.registry.order s'.lookups.archives ∧ d = s.metadata.fresh t a p

namespace Develops

variable {b : Blueprint φ β} {t : FileTree} {asked : Path → Prop} {s s₁ s₂ : Pipeline φ β}

/-- Nothing is read if the descriptors stay as they are. -/
theorem of_metadata (h : s.lookups.archives.Opens t s.registry.order s₁.lookups.archives)
    (hm : s₁.metadata = s.metadata) : Develops t asked s s₁ where
  views := h
  settings := ⟨s.metadata.descriptors, hm⟩
  kept q d hd := by rwa [hm]
  read q d hn hd := by
    rw [hm, hn] at hd
    cases hd

theorem refl (t : FileTree) (asked : Path → Prop) (s : Pipeline φ β) : Develops t asked s s :=
  of_metadata (.refl t _ _) rfl

theorem trans (h : Develops t asked s s₁) (hr : s₁.registry = s.registry)
    (hd : ∀ n x, s.defined.get? n = some x → s₁.defined.get? n = some x)
    (h' : Develops t asked s₁ s₂)
    (hd' : ∀ n x, s₁.defined.get? n = some x → s₂.defined.get? n = some x) :
    Develops t asked s s₂ where
  views := h.views.trans (hr ▸ h'.views)
  settings := by
    obtain ⟨ds, hs⟩ := h.settings
    obtain ⟨ds', hs'⟩ := h'.settings
    exact ⟨ds', by rw [hs', hs]⟩
  kept q d hq := h'.kept q d (h.kept q d hq)
  read q d hn hq := by
    cases hq₁ : s₁.metadata.get? q with
    | some d' =>
      have hkept := h'.kept q d' hq₁
      rw [hq] at hkept
      obtain rfl := Option.some.inj hkept
      obtain ⟨p, a, hp, hc, hv, hv', he⟩ := h.read q d hn hq₁
      refine ⟨p, a, hp.imp_right ?_, hc, hv, hv'.trans (hr ▸ h'.views), he⟩
      rintro ⟨n, x, hnone, hx, hsource⟩
      exact ⟨n, x, hnone, hd' n x hx, hsource⟩
    | none =>
      obtain ⟨p, a, hp, hc, hv, hv', he⟩ := h'.read q d hq₁ hq
      obtain ⟨ds, hs⟩ := h.settings
      refine ⟨p, a, hp.imp_right ?_, hc, h.views.trans (hr ▸ hv), hr ▸ hv', ?_⟩
      · rintro ⟨n, x, hnone, hx, hsource⟩
        refine ⟨n, x, ?_, hx, hsource⟩
        cases hx' : s.defined.get? n with
        | none => rfl
        | some x' =>
          rw [hd n x' hx'] at hnone
          cases hnone
      · rw [he, hs]
        rfl

/-- More may be asked for, and what is asked for may be what a new symbol comes from. -/
theorem mono {asked' : Path → Prop} (h : Develops t asked s s₁)
    (ha : ∀ p, asked p → asked' p ∨ s.Sources s₁ p) : Develops t asked' s s₁ where
  views := h.views
  settings := h.settings
  kept := h.kept
  read q d hn hd := by
    obtain ⟨p, a, hp, hrest⟩ := h.read q d hn hd
    exact ⟨p, a, hp.elim (ha p) Or.inr, hrest⟩

end Develops

variable {b : Blueprint φ β} {t : FileTree} {s s' : Pipeline φ β}

theorem archives_of_sources (h : s'.sources = s.sources) :
    s'.lookups.archives = s.lookups.archives := congrArg (·.2.1) h

/-- A descriptor that is asked for is read at its path. -/
theorem develops_descriptorFor (t : FileTree) (p : Path) (s : Pipeline φ β) :
    Develops t (· = p) s (s.descriptorFor t p).2 := by
  have harchives := archives_of_sources (sources_descriptorFor t p s)
  rcases s.metadata.descriptorFor_cases t p s.lookups with ⟨d, -, he⟩ | ⟨hn, -, he, -⟩
  · refine .of_metadata (harchives ▸ .refl t _ _) ?_
    exact congrArg (·.2.1) he
  · replace he : (s.descriptorFor t p).2.metadata =
        s.metadata.keep p (s.metadata.fresh t s.lookups.archives p) := he
    refine ⟨harchives ▸ .refl t _ _, ⟨_, he⟩, fun q d hd => ?_, fun q d hnone hd => ?_⟩
    · rw [he]
      exact MetadataCache.get?_keep_of_some hn hd _
    · rw [he, MetadataCache.get?_keep] at hd
      split at hd
      · rename_i hc
        obtain rfl := Option.some.inj hd
        exact ⟨p, s.lookups.archives, Or.inl rfl, hc.symm, .refl t _ _, harchives ▸ .refl t _ _,
          rfl⟩
      · rw [hnone] at hd
        cases hd

/-- Fetching opens views of registered origins only. -/
theorem opens_fetch (b : Blueprint φ β) (t : FileTree) (name : String) (allowed : Bool)
    (s : Pipeline φ β) :
    s.lookups.archives.Opens t s.registry.order (s.fetch b t name allowed).2.lookups.archives := by
  have hlooked := s.registry.opens_resolve? t
    (SymbolName.resource name b.config.resourceSuffix) s.lookups
  have hat {r : Except LoadError (Option Found)} {s₁ : Pipeline φ β}
      (h : s.resolveRegistered t (SymbolName.resource name b.config.resourceSuffix) = (r, s₁)) :
      s.lookups.archives.Opens t s.registry.order s₁.lookups.archives := by
    rw [show s₁ = _ from (congrArg Prod.snd h).symm]
    exact hlooked
  have hcopied {r : Except LoadError (Option Found)} {c : Option Resource} {s₁ s₂ : Pipeline φ β}
      (h : s.resolveRegistered t (SymbolName.resource name b.config.resourceSuffix) = (r, s₁))
      (h' : s₁.resolveFallback b t (SymbolName.resource name b.config.resourceSuffix) = (c, s₂)) :
      s.lookups.archives.Opens t s.registry.order s₂.lookups.archives := by
    have hlookups : s₁.lookups = s₂.lookups := congrArg (·.2.lookups) h'
    exact hlookups ▸ hat h
  have hf := fetches_fetch b t name allowed s
  generalize s.fetch b t name allowed = r at hf ⊢
  cases hf with
  | unreadable found | registered found | unasked found => exact hat found
  | absent found ha copy | shadowed found ha copy | copied found ha copy =>
    have hboth := hcopied found copy
    exact hboth

/-- Reporting a missing symbol opens no view. -/
theorem archives_orMissing (b : Blueprint φ β) (name : String) (r : Option Symbol × Pipeline φ β) :
    (orMissing b name r).2.lookups.archives = r.2.lookups.archives :=
  archives_of_sources (sources_orMissing b name r)

/-- Delegating opens no view. -/
theorem archives_delegate (b : Blueprint φ β) (t : FileTree) (name : String) (s : Pipeline φ β) :
    (s.delegate b t name).2.lookups.archives = s.lookups.archives := by
  have hd := delegates_delegate b t name s
  generalize s.delegate b t name = r at hd ⊢
  cases hd with
  | absent copy | asked copy =>
    exact (archives_orMissing b name _).trans (congrArg (·.2.lookups.archives) copy).symm
  | shadowed copy => exact (congrArg (·.2.lookups.archives) copy).symm

/-- A definition reads at most the descriptor of the origin that the symbol comes from. -/
theorem develops_define (undefined : s.defined.get? name = none) (t : FileTree) (f : Fetched)
    (bytes : ByteArray) : Develops t (fun _ => False) s (s.define t name f bytes).2 := by
  obtain ⟨-, hdefined⟩ := define_of_undefined undefined t f bytes
  have htables := tables_define t name f bytes s
  have harchives := archives_of_sources (sources_define t name f bytes s)
  have hmark := tables_markFetched name f s
  have hmarked := archives_of_sources (sources_markFetched name f s)
  cases hsource : f.codeSource with
  | none =>
    refine .of_metadata (harchives ▸ .refl t _ _) ?_
    rw [show (s.define t name f bytes).2.metadata = _ from congrArg Tables.metadata htables]
    dsimp only
    rw [hsource]
    exact congrArg Tables.metadata hmark
  | some p =>
    have hdefined' : (s.markFetched name f).defined = s.defined := congrArg Tables.defined hmark
    have hdescribed : ((s.markFetched name f).descriptorFor t p).2.defined = s.defined := hdefined'
    have hbefore : Develops t (· = p) s (s.markFetched name f) :=
      .of_metadata (hmarked ▸ .refl t _ _) (congrArg Tables.metadata hmark)
    have hread : Develops t (· = p) s ((s.markFetched name f).descriptorFor t p).2 :=
      hbefore.trans (congrArg Tables.registry hmark) (fun n x hx => by rwa [hdefined'])
        (develops_descriptorFor t p _) fun _ _ hx => hx
    have hafter : Develops t (· = p) ((s.markFetched name f).descriptorFor t p).2
        (s.define t name f bytes).2 := by
      refine .of_metadata ?_ ?_
      · rw [harchives, archives_of_sources (sources_descriptorFor t p _), hmarked]
        exact .refl t _ _
      · rw [show (s.define t name f bytes).2.metadata = _ from congrArg Tables.metadata htables]
        dsimp only
        rw [hsource]
        rfl
    refine (hread.trans (congrArg Tables.registry hmark) (fun n x hx => by rwa [hdescribed]) hafter
      fun n x hx => ?_).mono ?_
    · exact get?_define_of_some undefined t f bytes (hdescribed ▸ hx)
    · rintro q rfl
      exact Or.inr ⟨name, s.newSymbol t name f bytes, undefined,
        by rw [hdefined, Table.get?_insert_self], hsource⟩

/-- A load reads at most the descriptor of the origin that a new symbol comes from. -/
theorem develops_loadDotted (b : Blueprint φ β) (t : FileTree) (name : String) (allowed : Bool)
    (s : Pipeline φ β) :
    Develops t (fun _ => False) s (s.loadDotted b t name allowed).2 := by
  have hfetched {r : Except LoadError (Option Fetched)} {s₁ : Pipeline φ β}
      (h : s.fetch b t name (allowed || s.provenance.isFallbackSourced name) = (r, s₁)) :
      s.lookups.archives.Opens t s.registry.order s₁.lookups.archives := by
    rw [show s₁ = _ from (congrArg Prod.snd h).symm]
    exact opens_fetch b t name _ s
  have htransformed {f : Fetched} {r : Except LoadError ByteArray} {s₁ s₂ : Pipeline φ β}
      (h : s₁.transform b name f.bytes = (r, s₂)) :
      s₂.lookups.archives = s₁.lookups.archives := by
    rw [show s₂ = _ from (congrArg Prod.snd h).symm]
    exact archives_of_sources (sources_transform b name f.bytes s₁)
  have hl := loads_loadDotted b t name allowed s
  generalize s.loadDotted b t name allowed = r at hl ⊢
  cases hl with
  | present hx => exact .refl t _ s
  | support undefined hs =>
    refine .of_metadata ?_ (metadata_of_tables (by simp))
    rw [archives_orMissing]
    exact .refl t _ _
  | bootstrap undefined hs hb =>
    refine .of_metadata ?_ (metadata_of_tables (by simp))
    rw [archives_orMissing]
    exact .refl t _ _
  | unfetched undefined hs hb fetched =>
    exact .of_metadata (hfetched fetched) (metadata_of_tables (tables_of_fetch fetched))
  | delegated undefined hs hb fetched =>
    refine .of_metadata ?_
      (metadata_of_tables ((tables_delegate b t name _).trans (tables_of_fetch fetched)))
    rw [archives_delegate]
    exact hfetched fetched
  | untransformed undefined hs hb fetched transformed =>
    refine .of_metadata ?_ (metadata_of_tables
      ((tables_of_transform transformed).trans (tables_of_fetch fetched)))
    rw [htransformed transformed]
    exact hfetched fetched
  | @defines undefined hs hb f bytes s₁ s₂ fetched transformed =>
    have ht : s₂.tables = s.tables :=
      (tables_of_transform transformed).trans (tables_of_fetch fetched)
    have hbefore : Develops t (fun _ => False) s s₂ :=
      .of_metadata (htransformed transformed ▸ hfetched fetched) (metadata_of_tables ht)
    rw [← defined_of_tables ht] at undefined
    refine hbefore.trans (registry_of_tables ht) (fun n x hx => by rwa [defined_of_tables ht])
      (develops_define undefined t f bytes)
      fun n x hx => get?_define_of_some undefined t f bytes hx

end Pipeline

namespace Request

variable {φ β : Type}

/-- A request that only asks opens views of registered origins only. -/
theorem opens_run_of_asks {r : Request} (h : r.asks = true) (b : Blueprint φ β) (t : FileTree)
    (s : Pipeline φ β) :
    s.lookups.archives.Opens t s.registry.order (r.run b t s).2.lookups.archives := by
  cases r with
  | isLoaded name => exact .refl t _ _
  | resource name =>
    have hfound := s.registry.opens_find? t name s.lookups
    simp only [run, Pipeline.resource]
    split <;> rename_i he <;> rw [he] at hfound <;> exact hfound
  | resources name =>
    have hfound := s.registry.opens_findAll t name s.lookups
    simp only [run, Pipeline.resources]
    split <;> rename_i he <;> rw [he] at hfound <;> exact hfound
  | resourceBytes name =>
    have hfound : s.lookups.archives.Opens t s.registry.order
        (s.resolveRegistered t name).2.lookups.archives :=
      s.registry.opens_resolve? t name s.lookups
    simp only [run, Pipeline.resourceBytes]
    split <;> rename_i he <;> rw [he] at hfound <;> exact hfound
  | rawBytes name =>
    have hfetched := Pipeline.opens_fetch b t (SymbolName.dotted name) true s
    simp only [run, Pipeline.rawBytes]
    split <;> rename_i he <;> rw [he] at hfetched <;> exact hfetched
  | symbolBytes name transformed =>
    have hfetched := Pipeline.opens_fetch b t (SymbolName.dotted name) true s
    simp only [run, Pipeline.symbolBytes]
    split <;> rename_i he <;> rw [he] at hfetched
    · exact hfetched
    · exact hfetched
    · rename_i f s₁
      have hmade := Pipeline.archives_of_sources
        (Pipeline.sources_transform b (SymbolName.dotted name) f.bytes s₁)
      split
      · split <;> rename_i ht <;> rw [ht] at hmade <;> exact hmade ▸ hfetched
      · exact hfetched
  | register p tag | install tr | load name allowed | descriptor p | mark name => cases h

/-- A request reads no descriptor but the one that it asks for or those that new symbols come
with. -/
theorem develops_run (b : Blueprint φ β) (t : FileTree) (r : Request) (s : Pipeline φ β) :
    Pipeline.Develops t (r = .descriptor ·) s (r.run b t s).2 := by
  by_cases hasks : r.asks = true
  · exact .of_metadata (opens_run_of_asks hasks b t s)
      (Pipeline.metadata_of_tables (tables_run_of_asks hasks b t s))
  cases r with
  | load name allowed =>
    rw [run_load]
    exact (Pipeline.develops_loadDotted b t _ allowed s).mono fun _ h => h.elim
  | descriptor p =>
    exact (Pipeline.develops_descriptorFor t p s).mono fun q hq => Or.inl (congrArg _ hq.symm)
  | install tr =>
    simp only [run, Pipeline.install]
    split <;> exact .of_metadata (.refl t _ _) rfl
  | register p tag | mark name => exact .of_metadata (.refl t _ _) rfl
  | _ => exact absurd rfl hasks

/-- A definition stays, whatever is requested. -/
theorem get?_defined_run (b : Blueprint φ β) (t : FileTree) (r : Request) {s : Pipeline φ β}
    {n : String} {x : Symbol} (hx : s.defined.get? n = some x) :
    (r.run b t s).2.defined.get? n = some x := World.get?_step (w := ⟨t, s⟩) hx (.request r)

end Request

/-- Who is consulted reads no descriptors but those of the given origins and those that new symbols
come with. -/
theorem Pipeline.Consulted.develops {φ β : Type} {b : Blueprint φ β} {t : FileTree}
    {os : List Origin} {s s' : Pipeline φ β} (h : Consulted b t os s s') :
    Develops t (fun p => ∃ o ∈ os, o.location = p) s s' := by
  induction h with
  | refl => exact .refl t _ s
  | @request s' before r quiet described ih =>
    refine ih.trans before.registry_eq (fun n x hx => before.get?_defined hx)
      ((r.develops_run b t s').mono fun p hp => Or.inl (described p hp))
      fun n x hx => r.get?_defined_run b t hx

namespace Ensemble

variable {φ β : Type} {b : Blueprint φ β} {y y' : Ensemble φ β} {o : Occurrence}

/-- The paths by which an occurrence may ask for descriptors: the path of a request, the code
source of a new symbol, or the location of an origin of the module loader that is asked. -/
inductive AsksFor (y y' : Ensemble φ β) : Occurrence → Path → Prop
  /-- A descriptor is requested. -/
  | request {p : Path} : AsksFor y y' (.parent (.request (.descriptor p))) p
  /-- A new symbol comes from there. -/
  | symbol {o : Occurrence} {p : Path} (new : y.pipeline.Sources y'.pipeline p) : AsksFor y y' o p
  /-- One of the module's origins is there. -/
  | module {i : Nat} {r : ModuleRequest} {m : ModuleLoader} {og : Origin}
      (loader : y.modules[i]? = some m) (mem : og ∈ m.registry.order) :
      AsksFor y y' (.module i r) og.location

/-- What happens opens views of registered origins only, and reads descriptors only at the paths
by which it may ask for them. -/
theorem develops_step (b : Blueprint φ β) (y : Ensemble φ β) (o : Occurrence) :
    y.pipeline.Develops y.tree (AsksFor y (y.step b o) o) (y.step b o).pipeline := by
  cases o with
  | parent e =>
    cases e with
    | files t => exact .refl _ _ _
    | request r =>
      refine (r.develops_run b y.tree y.pipeline).mono ?_
      rintro p rfl
      exact Or.inl .request
  | join name => exact .refl _ _ _
  | module i r =>
    cases hm : y.modules[i]? with
    | none =>
      rw [step_module_none hm]
      exact .refl _ _ _
    | some m =>
      rw [step_module hm]
      by_cases hr : ∃ p, r = .addOrigin p
      · obtain ⟨p, rfl⟩ := hr
        exact .of_metadata (.refl _ _ _) rfl
      · have hproceeds := r.proceeds_run (fun p hp => hr ⟨p, hp⟩) b y.tree m y.pipeline
        refine hproceeds.parent.develops.mono ?_
        rintro p ⟨og, hog, rfl⟩
        exact Or.inl (.module hm hog)

/-- A live view stays. -/
theorem get?_archives_run {q : Path} {i : ArchiveIndex}
    (h : y.pipeline.lookups.archives.get? q = some i) (os : List Occurrence) :
    (y.run b os).pipeline.lookups.archives.get? q = some i :=
  run_induction (P := fun v => v.pipeline.lookups.archives.get? q = some i) h
    (fun v o hv => (v.develops_step b o).views.kept q i hv) os

end Ensemble

end Overlay
