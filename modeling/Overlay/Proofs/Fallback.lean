import Overlay.Loader.SearchPath
import Overlay.Proofs.Loading

/-!
# What a pipeline sees and asks

A pipeline looks for resources in its registry, through its live views, and in the fallback loader.
Only registering changes the first, only look-ups in the registry open views, and only questions to
the fallback loader change its state. A search path keeps its origins, and answers a question by a
look-up in them.
-/

namespace Overlay

/-- A pipeline over a search path. -/
def Blueprint.overSearchPath {β : Type} (config : Config) (bootstrap : BootstrapLoader β) :
    Blueprint SearchPath β := ⟨config, SearchPath.loader, bootstrap⟩

namespace Pipeline

variable {φ β : Type}

/-- What a pipeline finds resources with: its origins, its live views and the fallback loader. -/
def sources (s : Pipeline φ β) : Registry × ArchiveTable × φ :=
  (s.registry, s.lookups.archives, s.fallback)

@[simp] theorem sources_note (n : Notice) (s : Pipeline φ β) : (s.note n).sources = s.sources := rfl

@[simp] theorem sources_askBootstrap (b : Blueprint φ β) (t : FileTree) (name : String)
    (s : Pipeline φ β) : (s.askBootstrap b t name).2.sources = s.sources := rfl

/-- Reporting a missing symbol leaves at most a notice. -/
@[simp] theorem sources_orMissing (b : Blueprint φ β) (name : String)
    (r : Option Symbol × Pipeline φ β) : (orMissing b name r).2.sources = r.2.sources := by
  rcases r with ⟨_ | x, s⟩
  · simp only [orMissing]
    split <;> rfl
  · rfl

/-- Transforming finds nothing. -/
@[simp] theorem sources_transform (b : Blueprint φ β) (name : String) (bytes : ByteArray)
    (s : Pipeline φ β) : (s.transform b name bytes).2.sources = s.sources := by
  have ht := transforms_transform b name bytes s
  generalize s.transform b name bytes = r at ht
  cases ht <;> rfl

/-- Describing opens no view for later. -/
@[simp] theorem sources_descriptorFor (t : FileTree) (location : Path) (s : Pipeline φ β) :
    (s.descriptorFor t location).2.sources = s.sources := by
  have harchives : (s.metadata.descriptorFor t location s.lookups).2.2.archives =
      s.lookups.archives := by
    unfold MetadataCache.descriptorFor
    split
    · rfl
    · split <;> rfl
  rw [sources, sources, ← harchives]
  rfl

/-- A mark finds nothing. -/
@[simp] theorem sources_markFetched (name : String) (f : Fetched) (s : Pipeline φ β) :
    (s.markFetched name f).sources = s.sources := by
  unfold markFetched
  split <;> rfl

/-- Defining finds nothing. -/
@[simp] theorem sources_define (t : FileTree) (name : String) (f : Fetched) (bytes : ByteArray)
    (s : Pipeline φ β) : (s.define t name f bytes).2.sources = s.sources := by
  have hdescribe : ((s.markFetched name f).describe t f.codeSource).2.sources = s.sources := by
    unfold describe
    split
    · rw [sources_descriptorFor, sources_markFetched]
    · exact sources_markFetched name f s
  have hnote : ∀ s' : Pipeline φ β, (s'.noteNamespace name).sources = s'.sources := by
    intro s'
    unfold noteNamespace
    split
    · rfl
    · split <;> rfl
  exact (hnote _).trans hdescribe

theorem sources_of_transform {b : Blueprint φ β} {name : String} {bytes : ByteArray}
    {s s' : Pipeline φ β} {r : Except LoadError ByteArray}
    (h : s.transform b name bytes = (r, s')) : s'.sources = s.sources := by
  rw [← sources_transform b name bytes s, h]

end Pipeline

namespace SearchPath

/-- What registering keeps holds of the origins of a search path. -/
theorem register_induction {t : FileTree} {P : Registry → Prop}
    (hstep : ∀ r p tag tags, P r → P (r.register t p tag tags).2.1) {paths : List Path}
    {r r' : Registry} {tags tags' : TagStore} (h0 : P r)
    (h : register t paths r tags = .ok (r', tags')) : P r' := by
  induction paths generalizing r tags with
  | nil =>
    obtain ⟨rfl, rfl⟩ := Prod.mk.inj (Except.ok.inj h)
    exact h0
  | cons p paths ih =>
    have hp := hstep r p (some .primary) tags h0
    rw [register] at h
    split at h
    · cases h
    · rename_i he
      rw [he] at hp
      exact ih hp h

/-- A new search path has the registered origins, and neither symbols nor views. -/
theorem eq_of_ofPaths {t : FileTree} {paths : List Path} {suffix : String} {f : SearchPath}
    (h : ofPaths t paths suffix = .ok f) :
    ∃ r tags, register t paths Registry.empty TagStore.empty = .ok (r, tags) ∧
      f = ⟨suffix, r, tags, Table.empty, LookupState.empty⟩ := by
  unfold ofPaths at h
  cases hr : register t paths Registry.empty TagStore.empty with
  | error e =>
    rw [hr] at h
    cases h
  | ok result =>
    rw [hr] at h
    exact ⟨result.1, result.2, rfl, (Except.ok.inj h).symm⟩

/-- Finding a resource changes the live views and the notices alone. -/
theorem resolve_snd (t : FileTree) (name : String) (f : SearchPath) :
    (f.resolve t name).2 = { f with lookups := (f.registry.resolve? t name f.lookups).2 } := by
  unfold resolve
  split <;> rename_i he <;> rw [he]

/-- Finding all copies of a resource changes the live views and the notices alone. -/
theorem resolveAll_snd (t : FileTree) (name : String) (f : SearchPath) :
    (f.resolveAll t name).2 = { f with lookups := (f.registry.resolveAll t name f.lookups).2 } := by
  unfold resolveAll
  split <;> rename_i he <;> rw [he]

/-- A resource that is found comes from an origin of the search path. -/
theorem resolve_fst {t : FileTree} {name : String} {f : SearchPath} {found : Resource}
    (h : (f.resolve t name).1 = some found) :
    ∃ o, (f.registry.resolve? t name f.lookups).1 = .ok (some (o, found)) := by
  unfold resolve at h
  split at h <;> rename_i he <;> rw [he]
  · obtain ⟨⟨o, found'⟩, rfl, rfl⟩ := Option.map_eq_some_iff.1 h
    exact ⟨o, rfl⟩
  · cases h

/-- What asking a search path for a symbol can do. -/
inductive Serves (t : FileTree) (name : String) (f : SearchPath) :
    Option Symbol × SearchPath → Prop
  /-- The symbol is kept. -/
  | kept {x : Symbol} (hx : f.symbols.get? name = some x) : Serves t name f (some x, f)
  /-- The symbol is defined now, and kept. -/
  | defines {o : Origin} {found : Resource} {lookups : LookupState}
      (absent : f.symbols.get? name = none)
      (copy : f.registry.resolve? t (SymbolName.resource name f.resourceSuffix) f.lookups =
        (.ok (some (o, found)), lookups)) :
      Serves t name f
        (some ⟨name, found.bytes, some o.location, Descriptor.empty, .fallback⟩,
          { f with
            lookups
            symbols := f.symbols.insert name
              ⟨name, found.bytes, some o.location, Descriptor.empty, .fallback⟩ })
  /-- There is no copy, or it cannot be read. -/
  | fails {lookups : LookupState} (absent : f.symbols.get? name = none)
      (looked : (f.registry.resolve? t (SymbolName.resource name f.resourceSuffix) f.lookups).2 =
        lookups) : Serves t name f (none, { f with lookups })

/-- Asking for a symbol does one of these. -/
theorem serves_loadSymbol (t : FileTree) (name : String) (f : SearchPath) :
    Serves t name f (f.loadSymbol t name) := by
  unfold loadSymbol
  split
  · exact .kept ‹_›
  · rename_i absent
    split
    · rename_i o found lookups copy
      have hs := Serves.defines absent copy
      simp only [keep, Table.insertIfAbsent_of_none absent, Table.get?_insert_self,
        Option.getD_some]
      exact hs
    · rename_i he
      exact .fails absent (by rw [he])

/-- A symbol that is kept anew is that of a copy in an origin of the search path. -/
theorem origin_of_loadSymbol {t : FileTree} {name other : String} {f : SearchPath} {x : Symbol}
    (absent : f.symbols.get? other = none)
    (hx : (f.loadSymbol t name).2.symbols.get? other = some x) :
    name = other ∧ x.definedBy = .fallback ∧ ∃ o found,
      (f.registry.resolve? t (SymbolName.resource name f.resourceSuffix) f.lookups).1 =
        .ok (some (o, found)) ∧ x.codeSource = some o.location := by
  have hs := serves_loadSymbol t name f
  generalize f.loadSymbol t name = r at hs hx
  cases hs with
  | kept | fails =>
    rw [absent] at hx
    cases hx
  | @defines o found lookups _ copy =>
    by_cases hn : other = name
    · subst hn
      rw [Table.get?_insert_self] at hx
      obtain rfl := Option.some.inj hx
      exact ⟨rfl, rfl, o, found, congrArg Prod.fst copy, rfl⟩
    · rw [Table.get?_insert_of_ne _ hn, absent] at hx
      cases hx

/-- What a search path answers, it keeps. -/
theorem kept_of_loadSymbol {t : FileTree} {name : String} {f : SearchPath} {x : Symbol}
    (hx : (f.loadSymbol t name).1 = some x) :
    (f.loadSymbol t name).2.symbols.get? name = some x := by
  have hs := serves_loadSymbol t name f
  generalize f.loadSymbol t name = r at hs hx ⊢
  cases hs with
  | kept hkept => rwa [← hx]
  | defines absent copy =>
    rw [← hx]
    exact Table.get?_insert_self _ _ _
  | fails => cases hx

/-- A search path was only looked at: its origins and its symbols are as they were. -/
structure Looked (f f' : SearchPath) : Prop where
  /-- The origins are the same. -/
  registry_eq : f'.registry = f.registry
  /-- The suffix is the same. -/
  suffix_eq : f'.resourceSuffix = f.resourceSuffix
  /-- The symbols are the same. -/
  symbols_eq : f'.symbols = f.symbols

theorem Looked.refl (f : SearchPath) : f.Looked f := ⟨rfl, rfl, rfl⟩

theorem Looked.trans {f f' f'' : SearchPath} (h : f.Looked f') (h' : f'.Looked f'') :
    f.Looked f'' where
  registry_eq := h'.registry_eq.trans h.registry_eq
  suffix_eq := h'.suffix_eq.trans h.suffix_eq
  symbols_eq := h'.symbols_eq.trans h.symbols_eq

theorem looked_resolve (t : FileTree) (name : String) (f : SearchPath) :
    f.Looked (f.resolve t name).2 := by
  rw [resolve_snd]
  exact ⟨rfl, rfl, rfl⟩

theorem looked_resolveAll (t : FileTree) (name : String) (f : SearchPath) :
    f.Looked (f.resolveAll t name).2 := by
  rw [resolveAll_snd]
  exact ⟨rfl, rfl, rfl⟩

/-- A search path may have got more symbols: its origins are as they were, and it keeps its
symbols. -/
structure Grows (f f' : SearchPath) : Prop where
  /-- The origins are the same. -/
  registry_eq : f'.registry = f.registry
  /-- The suffix is the same. -/
  suffix_eq : f'.resourceSuffix = f.resourceSuffix
  /-- Every symbol that was kept is kept. -/
  keeps : ∀ name x, f.symbols.get? name = some x → f'.symbols.get? name = some x

theorem Grows.trans {f f' f'' : SearchPath} (h : f.Grows f') (h' : f'.Grows f'') :
    f.Grows f'' where
  registry_eq := h'.registry_eq.trans h.registry_eq
  suffix_eq := h'.suffix_eq.trans h.suffix_eq
  keeps name x hx := h'.keeps name x (h.keeps name x hx)

theorem Looked.grows {f f' : SearchPath} (h : f.Looked f') : f.Grows f' where
  registry_eq := h.registry_eq
  suffix_eq := h.suffix_eq
  keeps name x hx := by
    rw [h.symbols_eq]
    exact hx

/-- Asking for a symbol loses none. -/
theorem grows_loadSymbol (t : FileTree) (name : String) (f : SearchPath) :
    f.Grows (f.loadSymbol t name).2 := by
  have hs := serves_loadSymbol t name f
  generalize f.loadSymbol t name = r at hs ⊢
  cases hs with
  | kept | fails => exact ⟨rfl, rfl, fun other x hx => hx⟩
  | defines absent copy =>
    refine ⟨rfl, rfl, fun other x hx => ?_⟩
    have hne : other ≠ name := by
      rintro rfl
      rw [absent] at hx
      cases hx
    exact (Table.get?_insert_of_ne _ hne _).trans hx

end SearchPath

namespace Pipeline

variable {β : Type} {config : Config} {bootstrap : BootstrapLoader β} {t : FileTree}
  {s : Pipeline SearchPath β}

theorem looked_of_sources {s' : Pipeline SearchPath β} (h : s'.sources = s.sources) :
    s.fallback.Looked s'.fallback := by
  have hf : s'.fallback = s.fallback := congrArg (·.2.2) h
  rw [hf]
  exact .refl _

theorem looked_of_resolveFallback {resource : String} {r : Option Resource}
    {s₁ : Pipeline SearchPath β}
    (he : s.resolveFallback (.overSearchPath config bootstrap) t resource = (r, s₁)) :
    s.fallback.Looked s₁.fallback := by
  obtain rfl : (s.resolveFallback (.overSearchPath config bootstrap) t resource).2 = s₁ :=
    congrArg Prod.snd he
  exact SearchPath.looked_resolve t resource s.fallback

theorem looked_of_resolveRegistered {resource : String} {r : Except LoadError (Option Found)}
    {s₁ : Pipeline SearchPath β} (he : s.resolveRegistered t resource = (r, s₁)) :
    s.fallback.Looked s₁.fallback := by
  have hf : s₁.fallback = s.fallback := (congrArg (·.2.fallback) he).symm
  rw [hf]
  exact .refl _

/-- A fetch only looks at the search path. -/
theorem looked_of_fetch {name : String} {allowed : Bool}
    {r : Except LoadError (Option Fetched)} {s₁ : Pipeline SearchPath β}
    (he : s.fetch (.overSearchPath config bootstrap) t name allowed = (r, s₁)) :
    s.fallback.Looked s₁.fallback := by
  have hl := fetches_fetch (.overSearchPath config bootstrap) t name allowed s
  rw [he] at hl
  cases hl with
  | unreadable found | registered found | unasked found => exact looked_of_resolveRegistered found
  | absent found ha copy | copied found ha copy =>
    exact (looked_of_resolveRegistered found).trans (looked_of_resolveFallback copy)
  | shadowed found ha copy =>
    have hcopy := looked_of_resolveFallback copy
    exact (looked_of_resolveRegistered found).trans hcopy

/-- What a load does to the search path below. -/
inductive Asks (config : Config) (t : FileTree) (name : String) (s : Pipeline SearchPath β) :
    SearchPath → Prop
  /-- It looks at it. -/
  | looks {f : SearchPath} (looked : s.fallback.Looked f) : Asks config t name s f
  /-- It asks for a support name. -/
  | support (hs : config.isSupport name = true) :
      Asks config t name s (s.fallback.loadSymbol t name).2
  /-- It finds a copy that is not shadowed, and asks for the symbol. -/
  | delegates {f : SearchPath} {found : Resource} (looked : s.fallback.Looked f)
      (copy : (f.resolve t (SymbolName.resource name config.resourceSuffix)).1 = some found)
      (unshadowed : s.registry.isShadowed t found.location
        (SymbolName.resource name config.resourceSuffix) = false) :
      Asks config t name s
        ((f.resolve t (SymbolName.resource name config.resourceSuffix)).2.loadSymbol t name).2

/-- A load does one of these. -/
theorem asks_loadDotted (config : Config) (bootstrap : BootstrapLoader β) (t : FileTree)
    (name : String) (allowed : Bool) (s : Pipeline SearchPath β) :
    Asks config t name s
      (s.loadDotted (.overSearchPath config bootstrap) t name allowed).2.fallback := by
  have hmissing : ∀ r : Option Symbol × Pipeline SearchPath β,
      (orMissing (.overSearchPath config bootstrap) name r).2.fallback = r.2.fallback :=
    fun r => congrArg (·.2.2) (sources_orMissing (.overSearchPath config bootstrap) name r)
  have hl := loads_loadDotted (.overSearchPath config bootstrap) t name allowed s
  generalize s.loadDotted (.overSearchPath config bootstrap) t name allowed = r at hl ⊢
  cases hl with
  | present hx => exact .looks (.refl _)
  | support undefined hs =>
    rw [hmissing]
    exact .support hs
  | bootstrap undefined hs hb =>
    rw [hmissing]
    exact .looks (.refl _)
  | unfetched undefined hs hb fetched => exact .looks (looked_of_fetch fetched)
  | untransformed undefined hs hb fetched transformed =>
    exact .looks ((looked_of_fetch fetched).trans
      (looked_of_sources (sources_of_transform transformed)))
  | @defines undefined hs hb f bytes s₁ s₂ fetched transformed =>
    have hd : (s₂.define t name f bytes).2.sources = s₁.sources :=
      (sources_define t name f bytes s₂).trans (sources_of_transform transformed)
    exact .looks ((looked_of_fetch fetched).trans (looked_of_sources hd))
  | @delegated undefined hs hb s₁ fetched =>
    have hd := delegates_delegate (.overSearchPath config bootstrap) t name s₁
    generalize s₁.delegate (.overSearchPath config bootstrap) t name = r at hd ⊢
    cases hd with
    | absent copy =>
      have hcopy := looked_of_resolveFallback copy
      rw [hmissing]
      exact .looks ((looked_of_fetch fetched).trans hcopy)
    | shadowed copy =>
      have hcopy := looked_of_resolveFallback copy
      exact .looks ((looked_of_fetch fetched).trans hcopy)
    | @asked found s₂ copy hshadowed =>
      rw [hmissing]
      have hf : s₂.fallback = (s₁.fallback.resolve t
          (SymbolName.resource name config.resourceSuffix)).2 :=
        (congrArg (·.2.fallback) copy).symm
      have hr : s₂.registry = s.registry :=
        (congrArg (·.2.registry) copy).symm.trans (registry_of_tables (tables_of_fetch fetched))
      rw [hr] at hshadowed
      change Asks config t name s (s₂.fallback.loadSymbol t name).2
      rw [hf]
      exact .delegates (looked_of_fetch fetched) (congrArg Prod.fst copy) hshadowed

/-- Every other request only looks at the search path. -/
theorem looked_request {r : Request} (hr : ∀ name allowed, r ≠ .load name allowed) :
    s.fallback.Looked (r.run (.overSearchPath config bootstrap) t s).2.fallback := by
  cases r with
  | load name allowed => exact absurd rfl (hr name allowed)
  | register p tag | isLoaded name | mark name => exact .refl _
  | install tr =>
    simp only [Request.run, install]
    split <;> exact .refl _
  | descriptor location => exact looked_of_sources (sources_descriptorFor t location s)
  | resource name =>
    simp only [Request.run, resource]
    split
    · exact .refl _
    · exact SearchPath.looked_resolve t name s.fallback
  | resourceBytes name =>
    simp only [Request.run, resourceBytes]
    split <;> rename_i he
    · exact looked_of_resolveRegistered he
    · exact looked_of_resolveRegistered he
    · exact (looked_of_resolveRegistered he).trans (SearchPath.looked_resolve t name _)
  | resources name =>
    simp only [Request.run, resources]
    split
    · exact SearchPath.looked_resolveAll t name s.fallback
    · exact .refl _
  | rawBytes name =>
    simp only [Request.run, rawBytes]
    split <;> rename_i he <;> exact looked_of_fetch he
  | symbolBytes name transformed =>
    simp only [Request.run, symbolBytes]
    split <;> rename_i he
    · exact looked_of_fetch he
    · exact looked_of_fetch he
    · split
      · split <;> rename_i ht <;>
          exact (looked_of_fetch he).trans (looked_of_sources (sources_of_transform ht))
      · exact looked_of_fetch he

end Pipeline

end Overlay
