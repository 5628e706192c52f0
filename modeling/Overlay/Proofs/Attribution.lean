import Overlay.Proofs.Coherence
import Overlay.Proofs.Describing
import Overlay.Proofs.Packing
import Overlay.Proofs.Transformation

/-!
# Descriptors of symbols from archives

The bytes of a symbol from an archive are read through the live view, which was opened when the
archive was first looked at; its descriptor was read when it was first asked for, by the path that
was asked. If the file read the same then, by that path, as at the archive's location before, the
symbol has the descriptor of the very view that its bytes were read from. If the file was replaced
in between, the descriptor may be that of another version.
-/

namespace Overlay

variable {φ β : Type}

/-- Two paths that read the same lead to archives with the same entries. -/
theorem ArchiveIndex.ofPath_of_read_eq {t t' : FileTree} {p q : Path} {i : ArchiveIndex}
    (h : t'.read q = t.read p) (hi : ofPath t p = .ok i) :
    t'.isDirectory q = false ∧ ∃ j, ofPath t' q = .ok j ∧ j.entries = i.entries := by
  obtain ⟨c, es, hc, hes, rfl⟩ := ofPath_eq_ok_iff.1 hi
  constructor
  · unfold FileTree.isDirectory
    split
    · rename_i hnode
      rw [FileTree.read, hnode] at h
      rw [Archive.contents, ← h] at hc
      cases hc
    · rfl
  · have hcontents : Archive.contents t' q = .ok c := by
      rw [Archive.contents, h]
      exact hc
    exact ⟨⟨q, es⟩, ofPath_eq_ok_iff.2 ⟨c, es, hcontents, hes, rfl⟩, rfl⟩

namespace Origin

variable {t : FileTree} {o : Origin} {s : LookupState}

/-- An archive is seen as its live view. -/
theorem get?_view {i : ArchiveIndex} (h : (o.view t s).1 = some i) :
    (o.view t s).2.archives.get? o.location = some i := by
  unfold Origin.view at h ⊢
  rcases ArchiveTable.openView_cases t o.location s.archives with
      ⟨j, hg, he⟩ | ⟨e, hg, hj, he⟩ | ⟨j, hg, hj, he⟩ <;> rw [he] at h ⊢
  · exact hg.trans h
  · cases h
  · obtain rfl : j = i := Option.some.inj h
    change (s.archives.insertIfAbsent o.location j).get? o.location = some j
    rw [ArchiveTable.get?_insertIfAbsent, if_pos rfl, hg, Option.getD_none]

/-- What is read from an archive is in its live view. -/
theorem live_of_readResource {resource : String} {found : Resource} (hkind : o.kind = .archive)
    (h : (o.readResource t resource s).1 = .ok (some found)) :
    ∃ i, (o.readResource t resource s).2.archives.get? o.location = some i ∧
      i.read? resource = some found.bytes := by
  have hr := reads_readResource t resource o s
  generalize o.readResource t resource s = r at h hr
  cases hr with
  | archive hb hk =>
    obtain ⟨bytes, hbytes, rfl⟩ := Option.map_eq_some_iff.1 (Except.ok.inj h)
    obtain ⟨i, hi, hread⟩ := Option.bind_eq_some_iff.1 hbytes
    exact ⟨i, get?_view hi, hread⟩
  | file hb hk =>
    rw [hkind] at hk
    cases hk
  | _ => cases h

end Origin

/-- A copy that is found in an archive is in the live view of the archive. -/
theorem Registry.live_of_resolveIn {t : FileTree} {resource : String} {os : List Origin}
    {s : LookupState} {o : Origin} {found : Resource} (hkind : o.kind = .archive)
    (h : (resolveIn t resource os s).1 = .ok (some (o, found))) :
    ∃ i, (resolveIn t resource os s).2.archives.get? o.location = some i ∧
      i.read? resource = some found.bytes := by
  induction os generalizing s with
  | nil => cases h
  | cons o' os ih =>
    rw [resolveIn] at h ⊢
    split at h
    · cases h
    · rename_i found' s' he
      obtain ⟨rfl, rfl⟩ := Prod.mk.inj (Option.some.inj (Except.ok.inj h))
      have hlive := Origin.live_of_readResource hkind (congrArg Prod.fst he)
      rw [he] at hlive
      exact hlive
    · exact ih h

namespace Pipeline

variable {b : Blueprint φ β} {t : FileTree} {name : String} {allowed : Bool} {s s' : Pipeline φ β}
  {os : List Origin}

/-- A raw definition that the fallback loader did not supply comes from a registered origin; if
that is an archive, it is in the live view. -/
theorem live_of_fetch {f : Fetched} (h : (s.fetch b t name allowed).1 = .ok (some f))
    (hv : f.viaFallback = false) :
    ∃ o ∈ s.registry.order, f.codeSource = some o.location ∧ (o.kind = .archive →
      ∃ i, (s.fetch b t name allowed).2.lookups.archives.get? o.location = some i ∧
        i.read? (SymbolName.resource name b.config.resourceSuffix) = some f.bytes) := by
  have hf := fetches_fetch b t name allowed s
  generalize s.fetch b t name allowed = r at hf h ⊢
  cases hf with
  | unreadable found => cases h
  | unasked found => cases h
  | absent found => cases h
  | shadowed found => cases h
  | @registered o r s₁ found =>
    obtain rfl := Option.some.inj (Except.ok.inj h)
    have hresolved := congrArg Prod.fst found
    refine ⟨o, Registry.mem_of_resolveIn (Prod.ext hresolved rfl), rfl, fun hkind => ?_⟩
    obtain ⟨i, hi, hread⟩ := Registry.live_of_resolveIn hkind hresolved
    exact ⟨i, (congrArg (·.2.lookups.archives.get? o.location) found).symm.trans hi, hread⟩
  | copied found =>
    obtain rfl := Option.some.inj (Except.ok.inj h)
    cases hv

/-- A load of a draft opens the views that fetching the draft opens. -/
theorem archives_loadDotted_of_draft {f : Fetched} (h : s.draft? b t name allowed = some f) :
    (s.loadDotted b t name allowed).2.lookups.archives =
      (s.fetch b t name
        (allowed || s.provenance.isFallbackSourced name)).2.lookups.archives := by
  obtain ⟨⟨hundefined, hsupport, hbootstrap⟩, hfetch⟩ := draft?_eq_some_iff.1 h
  have hl := loads_loadDotted b t name allowed s
  generalize s.loadDotted b t name allowed = r at hl ⊢
  cases hl with
  | present hx => rw [hundefined] at hx; cases hx
  | support undefined hs => rw [hsupport] at hs; cases hs
  | bootstrap undefined hs hb => rw [hbootstrap] at hb; cases hb
  | unfetched undefined hs hb fetched => rw [fetched] at hfetch; cases hfetch
  | delegated undefined hs hb fetched => rw [fetched] at hfetch; cases hfetch
  | untransformed undefined hs hb fetched transformed =>
    rw [fetched]
    exact archives_of_sources (sources_of_transform transformed)
  | defines undefined hs hb fetched transformed =>
    rw [fetched]
    exact archives_of_sources
      ((sources_define t name _ _ _).trans (sources_of_transform transformed))

/-- The bytes of a symbol are the raw ones, or what the installed transformer made of them behind
the calls that it had had. -/
def Makes (b : Blueprint φ β) (s : Pipeline φ β) (name : String) (raw bytes : ByteArray) : Prop :=
  bytes = raw ∨ ∃ tr calls, s.transformer = some tr ∧ calls <+: s.transformed ∧
    b.config.canTransform name = true ∧ tr.run calls name raw = .ok bytes

theorem makes_of_transform {raw bytes : ByteArray} (h : (s.transform b name raw).1 = .ok bytes) :
    Makes b s name raw bytes := by
  have ht := transforms_transform b name raw s
  generalize s.transform b name raw = r at h ht
  cases ht with
  | bypassed => exact Or.inl (Except.ok.inj h).symm
  | made installed hname run =>
    obtain rfl := Except.ok.inj h
    exact Or.inr ⟨_, _, installed, List.prefix_rfl, hname, run⟩
  | failed => cases h

/-- A symbol comes from a registered origin; if that is an archive, the symbol was made from what
the live view shows. -/
def Traced (b : Blueprint φ β) (s : Pipeline φ β) (name : String) (x : Symbol) : Prop :=
  ∃ o ∈ s.registry.order, x.codeSource = some o.location ∧ (o.kind = .archive →
    ∃ i raw, s.lookups.archives.get? o.location = some i ∧
      i.read? (SymbolName.resource name b.config.resourceSuffix) = some raw ∧
      Makes b s name raw x.bytes)

/-- Every symbol that was defined from a registered origin is traced. -/
def AllTraced (b : Blueprint φ β) (s : Pipeline φ β) : Prop :=
  ∀ name x, s.defined.get? name = some x → x.definedBy = .layered → s.Traced b name x

end Pipeline

namespace Request

variable {b : Blueprint φ β} {t : FileTree} {r : Request} {s : Pipeline φ β}

/-- An installed transformer stays. -/
theorem transformer_run_of_some (b : Blueprint φ β) (t : FileTree) (r : Request)
    {tr : Transformer} (h : s.transformer = some tr) : (r.run b t s).2.transformer = some tr := by
  have hstep := World.transformer_step b ⟨t, s⟩ (.request r)
  rw [show (World.mk t s).pipeline.transformer = some tr from h, Option.some_or] at hstep
  exact hstep

/-- What made the bytes of a symbol is kept. -/
theorem makes_run (b : Blueprint φ β) (t : FileTree) (r : Request) {name : String}
    {raw bytes : ByteArray} (h : s.Makes b name raw bytes) :
    (r.run b t s).2.Makes b name raw bytes := by
  refine h.imp_right ?_
  rintro ⟨tr, calls, htr, hcalls, hmade⟩
  have hlog : s.transformed <+: (r.run b t s).2.transformed :=
    ⟨_, (transformed_run b t r s).symm⟩
  exact ⟨tr, calls, transformer_run_of_some b t r htr, hcalls.trans hlog, hmade⟩

/-- A symbol that was made from a live view is still made from it. -/
theorem traced_run (b : Blueprint φ β) (t : FileTree) (r : Request) {name : String} {x : Symbol}
    (h : s.Traced b name x) : (r.run b t s).2.Traced b name x := by
  obtain ⟨o, ho, hsource, hlive⟩ := h
  refine ⟨o, mem_order_run b t r ho, hsource, fun hkind => ?_⟩
  obtain ⟨i, raw, hi, hread, hmade⟩ := hlive hkind
  exact ⟨i, raw, (r.develops_run b t s).views.kept _ i hi, hread, makes_run b t r hmade⟩

/-- If the symbols from registered origins are traced, they are after a request. -/
theorem allTraced_run (h : s.AllTraced b) (t : FileTree) (r : Request) :
    (r.run b t s).2.AllTraced b := by
  intro name x hx hlayered
  by_cases hold : s.defined.get? name = some x
  · exact traced_run b t r (h name x hold hlayered)
  · obtain ⟨spelling, allowed, f, he, rfl, entered⟩ :=
      World.enters_of_newly_defined (w := ⟨t, s⟩) (e := .request r) hx hold
    obtain rfl := Event.request.inj he
    have hv : f.viaFallback = false := by
      refine eq_false_of_ne_true fun hv => ?_
      rw [entered.viaFallback_iff.1 hv] at hlayered
      cases hlayered
    have hfetch := (Pipeline.draft?_eq_some_iff.1 entered.drafted).2
    obtain ⟨o, ho, hsource, hlive⟩ := Pipeline.live_of_fetch hfetch hv
    refine ⟨o, mem_order_run b t _ ho, entered.codeSource_eq.trans hsource, fun hkind => ?_⟩
    obtain ⟨i, hi, hread⟩ := hlive hkind
    refine ⟨i, f.bytes, ?_, hread, ?_⟩
    · rw [run_load]
      exact (congrArg (·.get? o.location)
        (Pipeline.archives_loadDotted_of_draft entered.drafted)).trans hi
    · exact makes_run b t _ (Pipeline.makes_of_transform entered.transformed)

end Request

namespace Ensemble

variable {b : Blueprint φ β} {y : Ensemble φ β} {os : List Occurrence}

/-- In a run the live view of an archive was opened on the files of a tree. -/
def ViewOpened (b : Blueprint φ β) (y : Ensemble φ β) (os : List Occurrence) (location : Path)
    (i : ArchiveIndex) (t : FileTree) : Prop :=
  y.Happened b os fun v _ v' => v.tree = t ∧ v.pipeline.lookups.archives.get? location = none ∧
    v'.pipeline.lookups.archives.get? location = some i

/-- In a run the descriptor of an origin was first asked for by a path, on the files of a tree. -/
def FirstAsked (b : Blueprint φ β) (y : Ensemble φ β) (os : List Occurrence) (location p : Path)
    (t : FileTree) (d : Descriptor) : Prop :=
  y.Happened b os fun v o v' => v.tree = t ∧ v.pipeline.metadata.get? location = none ∧
    v'.pipeline.metadata.get? location = some d ∧ AsksFor v v' o p ∧
    p.components = location.components

/-- Where the bytes and the descriptor of a symbol from an archive come from. -/
structure Attributed (b : Blueprint φ β) (y : Ensemble φ β) (os : List Occurrence)
    (location : Path) (name : String) (x : Symbol) (i : ArchiveIndex) (raw : ByteArray)
    (t₁ t₂ : FileTree) (p : Path) : Prop where
  /-- The live view was opened on the files of the first tree. -/
  opened : y.ViewOpened b os location i t₁
  /-- It shows what stood there. -/
  indexed : ArchiveIndex.ofPath t₁ location = .ok i
  /-- The raw bytes were read from the view. -/
  read : i.read? (SymbolName.resource name b.config.resourceSuffix) = some raw
  /-- The symbol's bytes are the raw ones, or what the transformer makes of them. -/
  made : (y.run b os).pipeline.Makes b name raw x.bytes
  /-- The symbol's descriptor was first asked for by the path, on the files of the second tree. -/
  asked : y.FirstAsked b os location p t₂ x.descriptor
  /-- It is what was read there then, through the view if that was live by then. -/
  described : ∃ a : ArchiveTable, (∀ j, a.get? p = some j → j = i) ∧
    x.descriptor = (MetadataCache.ofConfig b.config).fresh t₂ a p
  /-- If the file read the same then, by that path, as at its location when the view was opened, the
  descriptor is that of the view. -/
  same : t₂.read p = t₁.read location →
    x.descriptor = (MetadataCache.ofConfig b.config).ofView i

/-- After every run the symbols from registered origins are traced. -/
theorem allTraced_run (b : Blueprint φ β) (t : FileTree) (f : φ) (g : β) (os : List Occurrence) :
    ((start b t f g).run b os).pipeline.AllTraced b :=
  pipeline_run (P := (·.AllTraced b)) (fun _ _ hx => nomatch hx)
    (fun t r _ hs => Request.allTraced_run hs t r) (fun _ _ hs => hs) t os

/-- After every run the tables of the pipeline agree. -/
theorem stays_coherent (b : Blueprint φ β) (t : FileTree) (f : φ) (g : β) (os : List Occurrence) :
    ∃ marks, Pipeline.Coherent b marks ((start b t f g).run b os).pipeline := by
  have hboth := pipeline_run (b := b) (f := f) (g := g)
    (P := fun s => (∃ marks, Pipeline.Coherent b marks s) ∧ s.registry.Consistent)
    ⟨⟨[], Pipeline.coherent_ofBlueprint b f g⟩, Registry.consistent_empty⟩ ?_ ?_ t os
  · exact hboth.1
  · rintro t r s ⟨⟨marks, hs⟩, hc⟩
    refine ⟨?_, Request.consistent_run hc t r⟩
    cases hm : r.marked? with
    | none => exact ⟨marks, hs.request hc t hm⟩
    | some name =>
      cases r with
      | mark n => exact ⟨_, hs.mark n⟩
      | _ => cases hm
  · rintro s tags ⟨⟨marks, hs⟩, hc⟩
    exact ⟨⟨marks, hs.mono rfl rfl rfl (fun _ h => h) fun _ _ h => h⟩, hc⟩

/-- Descriptors are looked for where the configuration says. -/
theorem settings_run (b : Blueprint φ β) (t : FileTree) (f : φ) (g : β) (os : List Occurrence) :
    ∃ ds, ((start b t f g).run b os).pipeline.metadata =
      { MetadataCache.ofConfig b.config with descriptors := ds } :=
  pipeline_run (P := fun s => ∃ ds, s.metadata =
      { MetadataCache.ofConfig b.config with descriptors := ds }) ⟨_, rfl⟩
    (by
      rintro t r s ⟨ds, hs⟩
      obtain ⟨ds', hs'⟩ := (r.develops_run b t s).settings
      exact ⟨ds', by rw [hs', hs]⟩)
    (fun _ _ hs => hs) t os

/-- The live view of a registered origin was opened in the run, on what stood there then. -/
theorem viewOpened_of_live (t : FileTree) (f : φ) (g : β) {og : Origin} {i : ArchiveIndex}
    (ho : og ∈ ((start b t f g).run b os).pipeline.registry.order)
    (hi : ((start b t f g).run b os).pipeline.lookups.archives.get? og.location = some i) :
    ∃ t₁, (start b t f g).ViewOpened b os og.location i t₁ ∧
      ArchiveIndex.ofPath t₁ og.location = .ok i := by
  have hstart : (start b t f g).pipeline.lookups.archives.get? og.location ≠ some i := nofun
  obtain ⟨before, o, later, rfl, hnot, hlive⟩ := exists_turn
    (Q := fun v => v.pipeline.lookups.archives.get? og.location = some i) hstart hi
  have hdevelops := ((start b t f g).run b before).develops_step b o
  have hnone : ((start b t f g).run b before).pipeline.lookups.archives.get? og.location =
      none := by
    cases hj : ((start b t f g).run b before).pipeline.lookups.archives.get? og.location with
    | none => rfl
    | some j =>
      have hkept := hdevelops.views.kept _ j hj
      rw [hlive] at hkept
      rw [hj, hkept] at hnot
      exact absurd rfl hnot
  obtain ⟨og', ho', hc, hindex⟩ := hdevelops.views.opened _ i hnone hlive
  have hlater : og' ∈ ((start b t f g).run b (before ++ o :: later)).pipeline.registry.order := by
    rw [run, List.foldl_append]
    exact mem_order_run ho' (o :: later)
  have hconsistent := consistent_run b t f g (before ++ o :: later) .pipeline _ rfl
  obtain rfl : og' = og := hconsistent.eq_of_mem hlater ho hc
  exact ⟨_, ⟨before, o, later, rfl, rfl, hnone, hlive⟩, hindex⟩

/-- A kept descriptor was first asked for in the run, by a path and through views that stay. -/
theorem firstAsked_of_kept (t : FileTree) (f : φ) (g : β) {q : Path} {d : Descriptor}
    (h : ((start b t f g).run b os).pipeline.metadata.get? q = some d) :
    ∃ t₂ p a, (start b t f g).FirstAsked b os q p t₂ d ∧
      d = (MetadataCache.ofConfig b.config).fresh t₂ a p ∧
      ∀ j, a.get? p = some j →
        ((start b t f g).run b os).pipeline.lookups.archives.get? q = some j := by
  have hstart : (start b t f g).pipeline.metadata.get? q ≠ some d := nofun
  obtain ⟨before, o, later, rfl, hnot, hkept⟩ := exists_turn
    (Q := fun v => v.pipeline.metadata.get? q = some d) hstart h
  have hdevelops := ((start b t f g).run b before).develops_step b o
  have hnone : ((start b t f g).run b before).pipeline.metadata.get? q = none := by
    cases hd : ((start b t f g).run b before).pipeline.metadata.get? q with
    | none => rfl
    | some d' =>
      have hstays := hdevelops.kept _ d' hd
      rw [hkept] at hstays
      rw [hd, hstays] at hnot
      exact absurd rfl hnot
  obtain ⟨p, a, hp, hc, -, hviews, hread⟩ := hdevelops.read q d hnone hkept
  obtain ⟨ds, hsettings⟩ := settings_run b t f g before
  refine ⟨_, p, a, ⟨before, o, later, rfl, rfl, hnone, hkept, hp.elim id .symbol, hc⟩, ?_, ?_⟩
  · rw [hread, hsettings]
    rfl
  · intro j hj
    rw [ArchiveTable.get?, hc] at hj
    rw [run, List.foldl_append]
    exact get?_archives_run (y := ((start b t f g).run b before).step b o) (hviews.kept q j hj)
      later

/-- In every run, a symbol that was defined from an archive was made from what a live view shows.
The view was opened on the files of one moment and the symbol's descriptor was read on those of
another, by the path that was asked. If the file read the same by that path as at the archive's
location before, the descriptor is that of the view. -/
theorem attributed_run (b : Blueprint φ β) (t : FileTree) (f : φ) (g : β) (os : List Occurrence)
    {name : String} {x : Symbol} {o : Origin}
    (hx : ((start b t f g).run b os).pipeline.defined.get? name = some x)
    (hlayered : x.definedBy = .layered)
    (ho : o ∈ ((start b t f g).run b os).pipeline.registry.order) (hkind : o.kind = .archive)
    (hsource : x.codeSource = some o.location) :
    ∃ i raw t₁ t₂ p, Attributed b (start b t f g) os o.location name x i raw t₁ t₂ p := by
  obtain ⟨o', ho', hsource', hlive⟩ := allTraced_run b t f g os name x hx hlayered
  have hconsistent := consistent_run b t f g os .pipeline _ rfl
  obtain rfl : o' = o := by
    refine hconsistent.eq_of_mem ho' ho ?_
    rw [Option.some.inj (hsource'.symm.trans hsource)]
  obtain ⟨i, raw, hi, hread, hmade⟩ := hlive hkind
  obtain ⟨t₁, hopened, hindexed⟩ := viewOpened_of_live t f g ho hi
  obtain ⟨marks, hcoherent⟩ := stays_coherent b t f g os
  have hdescribed := (hcoherent.vouched name x hx).described _ hsource
  obtain ⟨t₂, p, a, hasked, hfresh, hviews⟩ := firstAsked_of_kept t f g hdescribed
  have hview : ∀ k, a.get? p = some k → k = i := by
    intro k hk
    have hkept := hviews k hk
    rw [hi] at hkept
    exact (Option.some.inj hkept).symm
  refine ⟨i, raw, t₁, t₂, p, hopened, hindexed, hread, hmade, hasked, ⟨a, hview, hfresh⟩,
    fun hsame => ?_⟩
  obtain ⟨hd, j, hj, hentries⟩ := ArchiveIndex.ofPath_of_read_eq hsame hindexed
  rw [hfresh, ← MetadataCache.ofView_congr _ hentries]
  refine MetadataCache.fresh_eq_ofView hd hj (fun k hk => ?_) _
  rw [hview k hk, hentries]

end Ensemble

/-- A load defines a name from the copy in a registered origin. -/
theorem Pipeline.get?_loadDotted_of_found {b : Blueprint φ β} {t : FileTree} {name : String}
    {s : Pipeline φ β} {o : Origin} {found : Resource} {lookups : LookupState}
    (h : s.Definable b name) (htransformer : s.transformer = none)
    (hfound : s.registry.resolve? t (SymbolName.resource name b.config.resourceSuffix) s.lookups =
      (.ok (some (o, found)), lookups)) (allowed : Bool) :
    (s.loadDotted b t name allowed).2.defined.get? name = some
      { name, bytes := found.bytes, codeSource := some o.location,
        descriptor := (s.metadata.descriptorFor t o.location lookups).1, definedBy := .layered } := by
  have hfetch : s.fetch b t name (allowed || s.provenance.isFallbackSourced name) =
      (.ok (some ⟨found.bytes, some o.location, false⟩), { s with lookups }) := by
    rw [fetch, resolveRegistered, hfound]
  have hmade : ({ s with lookups } : Pipeline φ β).transform b name found.bytes =
      (.ok found.bytes, { s with lookups }) := by
    unfold transform
    rw [htransformer]
  have hundefined : ({ s with lookups } : Pipeline φ β).defined.get? name = none := h.undefined
  rw [loadDotted, h.undefined]
  dsimp only
  rw [if_neg (by simp [h.not_support]), if_neg (by simp [h.not_bootstrap]), tryDefine, hfetch]
  dsimp only
  rw [hmade]
  exact (congrArg (·.get? name) (define_of_undefined hundefined t _ found.bytes).2).trans
    (Table.get?_insert_self _ _ _)

namespace Versions

open OneArchive

/-- The file of a symbol. -/
def symbolFile : PackedFile := ("A.sym".toUTF8.data.toList, "1".toUTF8.data.toList)

/-- A signing entry. -/
def signerFile : PackedFile := ("META-INF/x.sig".toUTF8.data.toList, "eve".toUTF8.data.toList)

/-- A pipeline without settings and over loaders without symbols. -/
def blueprint : Blueprint Memory Unit := ⟨{}, Memory.loader, BootstrapLoader.none⟩

/-- The archive is registered and looked at, its file is replaced, and its symbol is loaded. -/
def replacing (files : List PackedFile) : List Occurrence :=
  [.parent (.request (.register archive.location none)), .parent (.request (.resource "A.sym")),
    .parent (.files (treeOf files)), .parent (.request (.load "A" false))]

/-- Where the run leads that starts with an archive and replaces it. -/
def outcome (before after : List PackedFile) : Ensemble Memory Unit :=
  (Ensemble.start blueprint (treeOf before) Memory.empty ()).run blueprint (replacing after)

/-- What a pipeline becomes when the files change between two requests and a third. -/
theorem pipeline_run_replaced (b : Blueprint φ β) (t t' : FileTree) (f : φ) (g : β)
    (r₁ r₂ r₃ : Request) :
    ((Ensemble.start b t f g).run b [.parent (.request r₁), .parent (.request r₂),
      .parent (.files t'), .parent (.request r₃)]).pipeline =
    (r₃.run b t' (r₂.run b t (r₁.run b t (Pipeline.ofBlueprint b f g)).2).2).2 := rfl

/-- Looking for a resource in the archive opens its view. -/
theorem get?_resource {files : List PackedFile} (h : Fitting files)
    {s : Pipeline Memory Unit} (horigin : s.registry = .only archive)
    (hnew : s.lookups.archives.get? archive.location = none) :
    ((Request.resource "A.sym").run blueprint (treeOf files) s).2.lookups.archives.get?
      archive.location = some (viewOf files) := by
  have hview : (archive.view (treeOf files) s.lookups).1 = some (viewOf files) := by
    have hlive : (s.lookups.archives.insertIfAbsent archive.location (viewOf files)).get?
        archive.location = some (viewOf files) := by
      rw [ArchiveTable.get?_insertIfAbsent, if_pos rfl, hnew, Option.getD_none]
    rw [Origin.view, ArchiveTable.openView, hnew, h.ofPath]
    dsimp only
    rw [hlive, Option.getD_some]
  have hlookups : ((Request.resource "A.sym").run blueprint (treeOf files) s).2.lookups =
      (s.registry.find? (treeOf files) "A.sym" s.lookups).2 := by
    simp only [Request.run, Pipeline.resource]
    split <;> rename_i he <;> rw [he]
    rfl
  have hfind : (s.registry.find? (treeOf files) "A.sym" s.lookups).2 =
      (archive.view (treeOf files) s.lookups).2 := by
    rw [horigin]
    change (Registry.findIn (treeOf files) "A.sym" [archive] s.lookups).2 = _
    rw [Registry.findIn, Origin.holds, show Path.staysBelow "A.sym" = true by decide]
    dsimp only [archive]
    split <;> rename_i he <;> exact (congrArg Prod.snd he).symm
  rw [hlookups, hfind]
  exact Origin.get?_view hview

/-- The pipeline with the archive registered. -/
def registered : Pipeline Memory Unit :=
  { Pipeline.ofBlueprint blueprint Memory.empty () with registry := .only archive }

/-- The symbol is loaded from the archive's live view, and described as what is read through it. -/
theorem get?_load {s : Pipeline Memory Unit} {i : ArchiveIndex} {raw : ByteArray}
    (htables : s.tables = registered.tables)
    (hlive : s.lookups.archives.get? archive.location = some i)
    (hread : i.read? "A.sym" = some raw) (t : FileTree) :
    ((Request.load "A" false).run blueprint t s).2.defined.get? "A" = some
      { name := "A", bytes := raw, codeSource := some archive.location,
        descriptor :=
          (MetadataCache.ofConfig {}).fresh t s.lookups.archives archive.location,
        definedBy := .layered } := by
  have hfound := Registry.resolve?_only_of_live (t := t) (o := archive) rfl hlive
    (show Path.staysBelow "A.sym" = true by decide) hread
  rw [show Registry.only archive = s.registry from (Pipeline.registry_of_tables htables).symm]
    at hfound
  have hdefinable : s.Definable blueprint "A" :=
    ⟨(congrArg (·.get? "A") (Pipeline.defined_of_tables htables)).trans rfl, by decide, by decide⟩
  have hmetadata : s.metadata = MetadataCache.ofConfig {} := Pipeline.metadata_of_tables htables
  have hdefined := Pipeline.get?_loadDotted_of_found hdefinable
    (Pipeline.transformer_of_tables htables) hfound false
  rcases s.metadata.descriptorFor_cases t archive.location s.lookups with ⟨d, hd, -⟩ | ⟨-, hd, -⟩
  · rw [hmetadata] at hd
    cases hd
  · rw [hd, hmetadata] at hdefined
    exact hdefined

theorem pipeline_outcome {before : List PackedFile} (h : Fitting before)
    (after : List PackedFile) :
    (outcome before after).pipeline = ((Request.load "A" false).run blueprint (treeOf after)
      ((Request.resource "A.sym").run blueprint (treeOf before) registered).2).2 := by
  rw [outcome, replacing, pipeline_run_replaced, Request.run_register_first h.origin, registered]

/-- Where the run leads: the archive is registered, its view is that of the first version, and the
symbol is defined from the view but described as what is read through it from the second. -/
theorem outcome_of_fitting {before : List PackedFile} (h : Fitting before) {raw : ByteArray}
    (hread : (viewOf before).read? "A.sym" = some raw) (after : List PackedFile) :
    (outcome before after).pipeline.registry.order = [archive] ∧
      (outcome before after).pipeline.lookups.archives.get? archive.location =
        some (viewOf before) ∧
      ∃ a : ArchiveTable, a.get? archive.location = some (viewOf before) ∧
        (outcome before after).pipeline.defined.get? "A" = some
          { name := "A", bytes := raw, codeSource := some archive.location,
            descriptor :=
              (MetadataCache.ofConfig {}).fresh (treeOf after) a archive.location,
            definedBy := .layered } := by
  rw [pipeline_outcome h]
  have hlive := get?_resource h (rfl : registered.registry = .only archive) rfl
  have htables : ((Request.resource "A.sym").run blueprint (treeOf before) registered).2.tables =
      registered.tables := Request.tables_run_of_asks rfl _ _ _
  generalize ((Request.resource "A.sym").run blueprint (treeOf before) registered).2 = s
    at hlive htables ⊢
  refine ⟨?_, ?_, s.lookups.archives, hlive, get?_load htables hlive hread (treeOf after)⟩
  · rw [show ((Request.load "A" false).run blueprint (treeOf after) s).2.registry = s.registry from
      Pipeline.registry_loadDotted _ _ _ _ _, Pipeline.registry_of_tables htables]
    rfl
  · exact ((Request.load "A" false).develops_run blueprint (treeOf after) s).views.kept _ _ hlive

/-- A signed version of the archive. -/
def signedFiles : List PackedFile := [signerFile, symbolFile]

theorem fits_symbolFile : Tar.Fits symbolFile.1 symbolFile.2 :=
  ⟨by decide, by decide, by decide⟩

theorem fits_signerFile : Tar.Fits signerFile.1 signerFile.2 :=
  ⟨by decide, by decide, by decide⟩

theorem fitting_symbol : Fitting [symbolFile] :=
  fitting_of_fits (List.forall_mem_singleton.2 fits_symbolFile) (by decide +kernel)
    (by decide +kernel)

theorem fitting_signer : Fitting [signerFile] :=
  fitting_of_fits (List.forall_mem_singleton.2 fits_signerFile) (by decide +kernel)
    (by decide +kernel)

theorem fitting_signed : Fitting signedFiles :=
  fitting_of_fits (List.forall_mem_cons.2 ⟨fits_signerFile,
    List.forall_mem_singleton.2 fits_symbolFile⟩) (by decide +kernel) (by decide +kernel)

/-- Its symbol. -/
def signedSymbol : Symbol :=
  ⟨"A", "1".toUTF8, some archive.location, ⟨Table.empty, ["eve"]⟩, .layered⟩

/-- Without a change of the file, the symbol has the signer that its bytes were read beside. -/
theorem attributed_signed :
    (outcome signedFiles signedFiles).pipeline.defined.get? "A" = some signedSymbol ∧
      signedSymbol.definedBy = .layered ∧
      archive ∈ (outcome signedFiles signedFiles).pipeline.registry.order ∧
      archive.kind = .archive ∧ signedSymbol.codeSource = some archive.location ∧
      ∃ i raw t₁ t₂ p, Ensemble.Attributed blueprint
        (Ensemble.start blueprint (treeOf signedFiles) Memory.empty ()) (replacing signedFiles)
        archive.location "A" signedSymbol i raw t₁ t₂ p := by
  have hread : (viewOf signedFiles).read? "A.sym" = some signedSymbol.bytes := by decide +kernel
  obtain ⟨horder, -, a, ha, hdefined⟩ := outcome_of_fitting fitting_signed hread signedFiles
  have hfresh : (MetadataCache.ofConfig {}).fresh (treeOf signedFiles) a archive.location =
      signedSymbol.descriptor := by
    rw [MetadataCache.fresh_eq_ofView fitting_signed.file fitting_signed.ofPath]
    · decide +kernel
    · intro j hj
      rw [ha] at hj
      rw [Option.some.inj hj]
  have hmem : archive ∈ (outcome signedFiles signedFiles).pipeline.registry.order := by
    rw [horder]
    exact List.mem_singleton.2 rfl
  rw [hfresh] at hdefined
  refine ⟨hdefined, rfl, hmem, rfl, rfl, ?_⟩
  rw [outcome] at hdefined hmem
  exact Ensemble.attributed_run blueprint (treeOf signedFiles) Memory.empty ()
    (replacing signedFiles) hdefined rfl hmem rfl rfl

/-- What is read as the descriptor through the view of an unsigned version, when the file is a
signed one by then. -/
theorem fresh_replaced {a : ArchiveTable}
    (ha : a.get? archive.location = some (viewOf [symbolFile])) :
    (MetadataCache.ofConfig {}).fresh (treeOf [signerFile]) a archive.location =
      ⟨Table.empty, ["eve"]⟩ := by
  have hscan : Archive.scanLeading (treeOf [signerFile]) archive.location
      (MetadataCache.ofConfig {}).directoryPrefix = .ok [("META-INF/x.sig", "eve".toUTF8)] := by
    have hleading : (([signerFile].map fun f =>
        (Archive.memberName (Tar.memberOf f.1 f.2), (⟨f.2.toArray⟩ : ByteArray))).takeWhile fun e =>
          (MetadataCache.ofConfig {}).directoryPrefix.toList.isPrefixOf e.1.toList) =
        [("META-INF/x.sig", "eve".toUTF8)] := by decide +kernel
    rw [Archive.scanLeading, Archive.contents_of_packed fitting_signer.fits fitting_signer.limit rfl
      rfl fitting_signer.mark]
    dsimp only
    rw [Archive.leadingOf_of_entriesOf (Archive.entriesOf_packed _), hleading]
  have hacquire : a.acquire (treeOf [signerFile]) archive.location =
      .ok ⟨viewOf [symbolFile], false⟩ := by
    rw [ArchiveTable.acquire, ha]
  rw [MetadataCache.fresh, MetadataCache.compute, fitting_signer.file, if_neg Bool.false_ne_true,
    MetadataCache.ofArchive, hscan]
  dsimp only
  rw [show MetadataCache.leadingDescriptor? _ [("META-INF/x.sig", "eve".toUTF8)] = none by
    decide +kernel, hacquire]
  decide +kernel

/-- A symbol of an unsigned archive is signed if the archive is replaced by a signed one between the
first look at it and the load. -/
theorem signer_of_another_version :
    ∃ x i, (outcome [symbolFile] [signerFile]).pipeline.defined.get? "A" = some x ∧
      x.definedBy = .layered ∧
      archive ∈ (outcome [symbolFile] [signerFile]).pipeline.registry.order ∧
      archive.kind = .archive ∧ x.codeSource = some archive.location ∧
      (outcome [symbolFile] [signerFile]).pipeline.lookups.archives.get? archive.location =
        some i ∧
      i.read? "A.sym" = some x.bytes ∧ x.descriptor.signers = ["eve"] ∧
      ∀ t, ArchiveIndex.ofPath t archive.location = .ok i →
        ((MetadataCache.ofConfig {}).fresh t .empty archive.location).signers = [] := by
  have hread : (viewOf [symbolFile]).read? "A.sym" = some "1".toUTF8 := by decide +kernel
  obtain ⟨horder, hlive, a, ha, hdefined⟩ := outcome_of_fitting fitting_symbol hread [signerFile]
  rw [fresh_replaced ha] at hdefined
  refine ⟨_, viewOf [symbolFile], hdefined, rfl, ?_, rfl, rfl, hlive, hread, rfl, ?_⟩
  · rw [horder]
    exact List.mem_singleton.2 rfl
  · intro t ht
    have hsame : t.read archive.location = t.read archive.location := rfl
    obtain ⟨hd, -⟩ := ArchiveIndex.ofPath_of_read_eq hsame ht
    rw [MetadataCache.fresh_eq_ofView hd ht]
    · decide +kernel
    · intro j hj
      rw [show ArchiveTable.empty.get? archive.location = none from rfl] at hj
      cases hj

end Versions

end Overlay
