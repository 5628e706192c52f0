import Overlay.Proofs.Fallback
import Overlay.Proofs.Views

/-!
# No refusal without a change of files

A pipeline refuses the fallback loader's copy of a symbol if the copy lies in a registered origin.
While the files do not change this never happens: the registry and the search path see the same
origins, each through views of its own, so a copy in a registered origin is found in the registry
first.
-/

namespace Overlay.Pipeline

open FileTree

variable {β : Type}

/-- A pipeline over a search path sees the files of a tree. -/
structure Steady (t : FileTree) (s : Pipeline SearchPath β) : Prop where
  /-- The registry is consistent. -/
  consistent : s.registry.Consistent
  /-- The registered origins stand in the tree. -/
  origins : ∀ o ∈ s.registry.order, o.Stands t
  /-- The live views of the pipeline are faithful. -/
  views : s.lookups.Faithful t
  /-- The origins of the search path stand in the tree. -/
  fallbackOrigins : ∀ o ∈ s.fallback.registry.order, o.Stands t
  /-- The live views of the search path are faithful. -/
  fallbackViews : s.fallback.lookups.Faithful t

/-- Whether a pipeline sees the files of a tree depends on its sources alone. -/
theorem Steady.of_sources {t : FileTree} {s s' : Pipeline SearchPath β} (h : s.Steady t)
    (hs : s'.sources = s.sources) : s'.Steady t := by
  have hr : s'.registry = s.registry := congrArg Prod.fst hs
  have ha : s'.lookups.archives = s.lookups.archives := congrArg (·.2.1) hs
  have hf : s'.fallback = s.fallback := congrArg (·.2.2) hs
  constructor
  case consistent =>
    rw [hr]
    exact h.consistent
  case origins =>
    rw [hr]
    exact h.origins
  case views =>
    intro place i hp hi
    rw [ha] at hi
    exact h.views place i hp hi
  case fallbackOrigins =>
    rw [hf]
    exact h.fallbackOrigins
  case fallbackViews =>
    rw [hf]
    exact h.fallbackViews

section

variable {config : Config} {bootstrap : BootstrapLoader β} {t : FileTree}
  {s : Pipeline SearchPath β}

/-- A look-up in the registered origins sees the same files. -/
theorem Steady.of_resolveRegistered (h : s.Steady t) {resource : String}
    {r : Except LoadError (Option Found)} {s₁ : Pipeline SearchPath β}
    (he : s.resolveRegistered t resource = (r, s₁)) : s₁.Steady t := by
  obtain rfl : (s.resolveRegistered t resource).2 = s₁ := congrArg Prod.snd he
  exact ⟨h.consistent, h.origins, Registry.faithful_resolveIn h.origins h.views _,
    h.fallbackOrigins, h.fallbackViews⟩

/-- A look-up in the search path sees the same files. -/
theorem Steady.resolveFallback (h : s.Steady t) (config : Config) (bootstrap : BootstrapLoader β)
    (resource : String) :
    (s.resolveFallback (.overSearchPath config bootstrap) t resource).2.Steady t := by
  have hf : (s.resolveFallback (.overSearchPath config bootstrap) t resource).2.fallback =
      { s.fallback with
        lookups := (s.fallback.registry.resolve? t resource s.fallback.lookups).2 } :=
    SearchPath.resolve_snd t resource s.fallback
  refine ⟨h.consistent, h.origins, h.views, ?_, ?_⟩
  · rw [hf]
    exact h.fallbackOrigins
  · rw [hf]
    exact Registry.faithful_resolveIn h.fallbackOrigins h.fallbackViews resource

theorem Steady.of_resolveFallback (h : s.Steady t) {resource : String} {r : Option Resource}
    {s₁ : Pipeline SearchPath β}
    (he : s.resolveFallback (.overSearchPath config bootstrap) t resource = (r, s₁)) :
    s₁.Steady t := by
  obtain rfl : (s.resolveFallback (.overSearchPath config bootstrap) t resource).2 = s₁ :=
    congrArg Prod.snd he
  exact h.resolveFallback config bootstrap resource

/-- A question to the search path. -/
theorem Steady.askFallback (h : s.Steady t) (name : String) :
    (s.askFallback (.overSearchPath config bootstrap) t name).2.Steady t := by
  have hs : SearchPath.Serves t name s.fallback (s.fallback.loadSymbol t name) :=
    SearchPath.serves_loadSymbol t name s.fallback
  have hlooked := Registry.faithful_resolveIn h.fallbackOrigins h.fallbackViews
    (SymbolName.resource name s.fallback.resourceSuffix)
  have hboth : (∀ o ∈ (s.fallback.loadSymbol t name).2.registry.order, o.Stands t) ∧
      (s.fallback.loadSymbol t name).2.lookups.Faithful t := by
    generalize s.fallback.loadSymbol t name = r at hs
    cases hs with
    | kept hx => exact ⟨h.fallbackOrigins, h.fallbackViews⟩
    | defines absent copy =>
      refine ⟨h.fallbackOrigins, ?_⟩
      rw [Registry.resolve?] at copy
      rw [copy] at hlooked
      exact hlooked
    | fails absent looked =>
      refine ⟨h.fallbackOrigins, ?_⟩
      rw [← looked]
      exact hlooked
  exact ⟨h.consistent, h.origins, h.views, hboth.1, hboth.2⟩

/-- The origin from which a search path serves a symbol is not registered if no registered origin
has a copy. -/
theorem Steady.contains_of_absent (h : s.Steady t) {resource : String}
    (absent : (s.registry.resolve? t resource s.lookups).1 = .ok none) {o : Origin}
    {found : Resource}
    (copy : (s.fallback.registry.resolve? t resource s.fallback.lookups).1 =
      .ok (some (o, found))) : s.registry.contains o.location = false := by
  obtain ⟨ho, hread⟩ :=
    Registry.readResource_of_resolveIn_some h.fallbackOrigins h.fallbackViews copy
  refine eq_false_of_ne_true fun hc => ?_
  obtain ⟨o', ho', hlocation⟩ := (h.consistent.contains_iff _).1 hc
  have hsame := (h.origins o' ho').eq (h.fallbackOrigins o ho) hlocation
  have hnone := Registry.readResource_of_resolveIn_none h.origins h.views absent o' ho'
  rw [hsame, hread] at hnone
  cases hnone

/-- A search path's copy of a symbol is not shadowed if no registered origin has a copy. -/
theorem Steady.isShadowed_of_absent (h : s.Steady t) {suffix : String}
    (hs : '/' ∉ suffix.toList) {name : String}
    (absent : (s.registry.resolve? t (SymbolName.resource name suffix) s.lookups).1 = .ok none)
    {o : Origin} {found : Resource}
    (copy : (s.fallback.registry.resolve? t (SymbolName.resource name suffix)
      s.fallback.lookups).1 = .ok (some (o, found))) :
    s.registry.isShadowed t found.location (SymbolName.resource name suffix) = false := by
  obtain ⟨ho, hread⟩ :=
    Registry.readResource_of_resolveIn_some h.fallbackOrigins h.fallbackViews copy
  rw [Registry.isShadowed, Origin.location_of_readResource hread,
    (h.fallbackOrigins o ho).codeSource?_locate hs hread]
  exact h.contains_of_absent absent copy

/-- Fetching sees the same files. -/
theorem Steady.fetch (h : s.Steady t) (name : String) (allowed : Bool) :
    (s.fetch (.overSearchPath config bootstrap) t name allowed).2.Steady t := by
  have hl := fetches_fetch (.overSearchPath config bootstrap) t name allowed s
  generalize s.fetch (.overSearchPath config bootstrap) t name allowed = r at hl ⊢
  cases hl with
  | unreadable found | registered found | unasked found => exact h.of_resolveRegistered found
  | absent found ha copy | copied found ha copy =>
    exact (h.of_resolveRegistered found).of_resolveFallback copy
  | shadowed found ha copy =>
    have h₂ := (h.of_resolveRegistered found).of_resolveFallback copy
    exact h₂.of_sources rfl

theorem Steady.of_fetch (h : s.Steady t) {name : String} {allowed : Bool}
    {r : Except LoadError (Option Fetched)} {s₁ : Pipeline SearchPath β}
    (he : s.fetch (.overSearchPath config bootstrap) t name allowed = (r, s₁)) : s₁.Steady t := by
  obtain rfl : (s.fetch (.overSearchPath config bootstrap) t name allowed).2 = s₁ :=
    congrArg Prod.snd he
  exact h.fetch name allowed

/-- If there is no raw definition, no registered origin has a copy. -/
theorem absent_of_fetch {name : String} {allowed : Bool} {s₁ : Pipeline SearchPath β}
    (he : s.fetch (.overSearchPath config bootstrap) t name allowed = (.ok none, s₁)) :
    (s.registry.resolve? t (SymbolName.resource name config.resourceSuffix) s.lookups).1 =
      .ok none := by
  have hl := fetches_fetch (.overSearchPath config bootstrap) t name allowed s
  rw [he] at hl
  cases hl with
  | unasked found | absent found => exact congrArg Prod.fst found

/-- A copy that the search path serves comes from one of its origins. -/
theorem copy_of_resolveFallback {resource : String} {found : Resource}
    {s₁ : Pipeline SearchPath β}
    (he : s.resolveFallback (.overSearchPath config bootstrap) t resource = (some found, s₁)) :
    ∃ o, (s.fallback.registry.resolve? t resource s.fallback.lookups).1 = .ok (some (o, found)) :=
  SearchPath.resolve_fst (congrArg Prod.fst he)

/-- If no registered origin has a copy, the search path's copy is not refused a little later. -/
theorem Steady.isShadowed_later (h : s.Steady t) (hs : '/' ∉ config.resourceSuffix.toList)
    {name : String}
    (absent : (s.registry.resolve? t (SymbolName.resource name config.resourceSuffix)
      s.lookups).1 = .ok none)
    {s₁ s₂ : Pipeline SearchPath β} (h₁ : s₁.Steady t) (hr : s₁.registry = s.registry)
    {found : Resource}
    (copy : s₁.resolveFallback (.overSearchPath config bootstrap) t
      (SymbolName.resource name config.resourceSuffix) = (some found, s₂)) :
    s₂.registry.isShadowed t found.location
      (SymbolName.resource name config.resourceSuffix) = false := by
  have hr₂ : s₂.registry = s₁.registry := (congrArg (·.2.registry) copy).symm
  have habsent : (s₁.registry.resolve? t (SymbolName.resource name config.resourceSuffix)
      s₁.lookups).1 = .ok none := by
    rw [← absent, hr]
    exact Registry.resolveIn_eq h.origins h₁.views h.views
  obtain ⟨o, hcopy⟩ := copy_of_resolveFallback copy
  rw [hr₂]
  exact h₁.isShadowed_of_absent hs habsent hcopy

/-- Fetching never refuses a copy. -/
theorem Steady.fetch_ne_shadowed (h : s.Steady t) (hs : '/' ∉ config.resourceSuffix.toList)
    (name : String) (allowed : Bool) (name' : String) (l : Location) :
    (s.fetch (.overSearchPath config bootstrap) t name allowed).1 ≠
      .error (.shadowed name' l) := by
  have hl := fetches_fetch (.overSearchPath config bootstrap) t name allowed s
  generalize s.fetch (.overSearchPath config bootstrap) t name allowed = r at hl ⊢
  cases hl with
  | unreadable found =>
    obtain ⟨o, -, cause, rfl⟩ := Registry.error_of_resolveIn (congrArg Prod.fst found)
    simp
  | registered | unasked | absent | copied => simp
  | @shadowed found s₁ s₂ looked ha copy hshadowed =>
    have hr : s₁.registry = s.registry := (congrArg (·.2.registry) looked).symm
    have hnot := h.isShadowed_later hs (congrArg Prod.fst looked) (h.of_resolveRegistered looked)
      hr copy
    cases hnot.symm.trans hshadowed

/-- A missing symbol is no refusal. -/
theorem orMissing_ne_shadowed (b : Blueprint SearchPath β) (name : String)
    (r : Option Symbol × Pipeline SearchPath β) (name' : String) (l : Location) :
    (orMissing b name r).1 ≠ .error (.shadowed name' l) := by
  rcases r with ⟨_ | x, s⟩ <;> simp [orMissing]

/-- A transformer that fails is no refusal. -/
theorem transform_ne_shadowed {b : Blueprint SearchPath β} {name : String} {bytes : ByteArray}
    {s s' : Pipeline SearchPath β} {name' : String} {l : Location}
    (h : s.transform b name bytes = (.error (.shadowed name' l), s')) : False := by
  have ht := transforms_transform b name bytes s
  rw [h] at ht
  cases ht

/-- Delegating sees the same files. -/
theorem Steady.delegate (h : s.Steady t) (name : String) :
    (s.delegate (.overSearchPath config bootstrap) t name).2.Steady t := by
  have hl := delegates_delegate (.overSearchPath config bootstrap) t name s
  generalize s.delegate (.overSearchPath config bootstrap) t name = r at hl ⊢
  cases hl with
  | absent copy => exact (h.of_resolveFallback copy).of_sources (by simp)
  | shadowed copy => exact (h.of_resolveFallback copy).of_sources rfl
  | @asked found s₁ copy =>
    have h₁ : (s₁.askFallback (.overSearchPath config bootstrap) t name).2.Steady t :=
      (h.of_resolveFallback copy).askFallback name
    exact h₁.of_sources (by simp)

/-- Delegating a name without a raw definition never refuses a copy. -/
theorem Steady.delegate_ne_shadowed (h : s.Steady t) (hs : '/' ∉ config.resourceSuffix.toList)
    {name : String} {allowed : Bool} {s₁ : Pipeline SearchPath β}
    (fetched : s.fetch (.overSearchPath config bootstrap) t name allowed = (.ok none, s₁))
    (name' : String) (l : Location) :
    (s₁.delegate (.overSearchPath config bootstrap) t name).1 ≠ .error (.shadowed name' l) := by
  have h₁ : s₁.Steady t := h.of_fetch fetched
  have hl := delegates_delegate (.overSearchPath config bootstrap) t name s₁
  generalize s₁.delegate (.overSearchPath config bootstrap) t name = r at hl ⊢
  cases hl with
  | absent copy => exact orMissing_ne_shadowed _ name _ name' l
  | asked copy => exact orMissing_ne_shadowed _ name _ name' l
  | @shadowed found s₂ copy hshadowed =>
    have hnot := h.isShadowed_later hs (absent_of_fetch fetched) h₁
      (registry_of_tables (tables_of_fetch fetched)) copy
    cases hnot.symm.trans hshadowed

/-- Loading sees the same files. -/
theorem Steady.loadDotted (h : s.Steady t) (name : String) (allowed : Bool) :
    (s.loadDotted (.overSearchPath config bootstrap) t name allowed).2.Steady t := by
  have hl := loads_loadDotted (.overSearchPath config bootstrap) t name allowed s
  generalize s.loadDotted (.overSearchPath config bootstrap) t name allowed = r at hl ⊢
  cases hl with
  | present hx => exact h
  | support undefined =>
    have h₁ : (s.askFallback (.overSearchPath config bootstrap) t name).2.Steady t :=
      h.askFallback name
    exact h₁.of_sources (by simp)
  | bootstrap undefined => exact h.of_sources (by simp)
  | unfetched undefined hs hb fetched => exact h.of_fetch fetched
  | untransformed undefined hs hb fetched transformed =>
    exact (h.of_fetch fetched).of_sources (sources_of_transform transformed)
  | defines undefined hs hb fetched transformed =>
    exact (h.of_fetch fetched).of_sources
      ((sources_define t name _ _ _).trans (sources_of_transform transformed))
  | delegated undefined hs hb fetched => exact (h.of_fetch fetched).delegate name

/-- Loading never refuses a copy. -/
theorem Steady.loadDotted_ne_shadowed (h : s.Steady t) (hs : '/' ∉ config.resourceSuffix.toList)
    (name : String) (allowed : Bool) (name' : String) (l : Location) :
    (s.loadDotted (.overSearchPath config bootstrap) t name allowed).1 ≠
      .error (.shadowed name' l) := by
  have hl := loads_loadDotted (.overSearchPath config bootstrap) t name allowed s
  generalize s.loadDotted (.overSearchPath config bootstrap) t name allowed = r at hl ⊢
  cases hl with
  | present | defines => simp
  | support | bootstrap => exact orMissing_ne_shadowed _ name _ name' l
  | unfetched undefined hsupport hb fetched =>
    have hne : (s.fetch (.overSearchPath config bootstrap) t name
        (allowed || s.provenance.isFallbackSourced name)).1 ≠ .error (.shadowed name' l) :=
      h.fetch_ne_shadowed hs name _ name' l
    rw [fetched] at hne
    intro he
    obtain rfl := Except.error.inj he
    exact hne rfl
  | @untransformed undefined hsupport hb f e s₁ s₂ fetched transformed =>
    intro he
    obtain rfl := Except.error.inj he
    exact transform_ne_shadowed transformed
  | delegated undefined hsupport hb fetched => exact h.delegate_ne_shadowed hs fetched name' l

/-- Registering sees the same files. -/
theorem Steady.registerOrigin (h : s.Steady t) (hw : t.HasRealWorkingDirectory) (p : Path)
    (tag : Option OriginTag) : (s.registerOrigin t p tag).2.Steady t := by
  refine ⟨h.consistent.register t p tag s.tags, ?_, h.views, h.fallbackOrigins, h.fallbackViews⟩
  intro o ho
  rcases Registry.mem_order_register ho with ho | ho
  · exact h.origins o ho
  · exact Origin.stands_of_ofPath hw ho

/-- Locating a resource sees the same files. -/
theorem Steady.resource (h : s.Steady t) (name : String) :
    (s.resource (.overSearchPath config bootstrap) t name).2.Steady t := by
  have hfind := Registry.faithful_findIn h.origins h.views name
  have h₁ : { s with lookups := (s.registry.find? t name s.lookups).2 }.Steady t :=
    ⟨h.consistent, h.origins, hfind, h.fallbackOrigins, h.fallbackViews⟩
  unfold Pipeline.resource
  split <;> rename_i he <;> rw [he] at h₁
  · exact h₁
  · exact h₁.resolveFallback config bootstrap name

/-- Locating all copies of a resource sees the same files. -/
theorem Steady.resources (h : s.Steady t) (name : String) :
    (s.resources (.overSearchPath config bootstrap) t name).2.Steady t := by
  have hfind := Registry.faithful_findAllIn h.origins h.views name
  have hall := Registry.faithful_resolveAllIn h.fallbackOrigins h.fallbackViews name
  have hf : (s.fallback.resolveAll t name).2 =
      { s.fallback with
        lookups := (s.fallback.registry.resolveAll t name s.fallback.lookups).2 } :=
    SearchPath.resolveAll_snd t name s.fallback
  unfold Pipeline.resources
  split <;> rename_i he <;> rw [show Registry.findAllIn t name _ _ = _ from he] at hfind
  · refine ⟨h.consistent, h.origins, hfind, ?_, ?_⟩
    · change ∀ o ∈ (s.fallback.resolveAll t name).2.registry.order, o.Stands t
      rw [hf]
      exact h.fallbackOrigins
    · change (s.fallback.resolveAll t name).2.lookups.Faithful t
      rw [hf]
      exact hall
  · exact ⟨h.consistent, h.origins, hfind, h.fallbackOrigins, h.fallbackViews⟩

/-- Every request sees the same files. -/
theorem Steady.request (h : s.Steady t) (hw : t.HasRealWorkingDirectory) (r : Request) :
    (r.run (.overSearchPath config bootstrap) t s).2.Steady t := by
  cases r with
  | register p tag => exact h.registerOrigin hw p tag
  | install tr =>
    apply h.of_sources
    simp only [Request.run, install]
    split <;> rfl
  | load name allowed =>
    rw [Request.run_load]
    exact h.loadDotted _ allowed
  | isLoaded name | mark name => exact h.of_sources rfl
  | descriptor location => exact h.of_sources (sources_descriptorFor t location s)
  | resource name =>
    change (s.resource (.overSearchPath config bootstrap) t name).2.Steady t
    exact h.resource name
  | resources name =>
    change (s.resources (.overSearchPath config bootstrap) t name).2.Steady t
    exact h.resources name
  | resourceBytes name =>
    simp only [Request.run, resourceBytes]
    split <;> rename_i he
    · exact h.of_resolveRegistered he
    · exact h.of_resolveRegistered he
    · exact (h.of_resolveRegistered he).resolveFallback config bootstrap name
  | rawBytes name =>
    simp only [Request.run, rawBytes]
    split <;> rename_i he <;> exact h.of_fetch he
  | symbolBytes name transformed =>
    simp only [Request.run, symbolBytes]
    split <;> rename_i he
    · exact h.of_fetch he
    · exact h.of_fetch he
    · split
      · split <;> rename_i ht <;> exact (h.of_fetch he).of_sources (sources_of_transform ht)
      · exact h.of_fetch he

/-- A failed registration is no refusal. -/
theorem registerOrigin_ne_shadowed (t : FileTree) (p : Path) (tag : Option OriginTag)
    (s : Pipeline SearchPath β) (name : String) (l : Location) :
    (s.registerOrigin t p tag).1 ≠ .error (.shadowed name l) := by
  change (s.registry.register t p tag s.tags).1 ≠ _
  rcases Registry.register_cases t p tag s.registry s.tags with ⟨e, ho, he⟩ | ⟨o, ho, he⟩
  · rw [he]
    unfold Registry.originAt at ho
    split at ho
    · cases ho
    · obtain rfl := Except.error.inj ho
      simp
  · rw [he]
    simp

/-- A second transformer is no refusal. -/
theorem install_ne_shadowed (tr : Transformer) (s : Pipeline SearchPath β) (name : String)
    (l : Location) : (s.install tr).1 ≠ .error (.shadowed name l) := by
  unfold install
  split <;> simp

/-- A resource that cannot be read is no refusal. -/
theorem resourceBytes_ne_shadowed (b : Blueprint SearchPath β) (t : FileTree) (name' : String)
    (s : Pipeline SearchPath β) (name : String) (l : Location) :
    (s.resourceBytes b t name').1 ≠ .error (.shadowed name l) := by
  unfold resourceBytes
  split <;> rename_i hr
  · obtain ⟨o, -, cause, rfl⟩ := Registry.error_of_resolveIn (congrArg Prod.fst hr)
    simp
  · simp
  · simp

/-- Asking for a raw definition never refuses a copy. -/
theorem Steady.rawBytes_ne_shadowed (h : s.Steady t) (hs : '/' ∉ config.resourceSuffix.toList)
    (name' : String) (name : String) (l : Location) :
    (s.rawBytes (.overSearchPath config bootstrap) t name').1 ≠ .error (.shadowed name l) := by
  have hne : (s.fetch (.overSearchPath config bootstrap) t (SymbolName.dotted name') true).1 ≠
      .error (.shadowed name l) := h.fetch_ne_shadowed hs _ true name l
  unfold rawBytes
  split <;> rename_i hr <;> rw [hr] at hne
  · simpa using hne
  · simp

/-- Asking for a definition never refuses a copy. -/
theorem Steady.symbolBytes_ne_shadowed (h : s.Steady t)
    (hs : '/' ∉ config.resourceSuffix.toList) (name' : String) (transformed : Bool)
    (name : String) (l : Location) :
    (s.symbolBytes (.overSearchPath config bootstrap) t name' transformed).1 ≠
      .error (.shadowed name l) := by
  have hne : (s.fetch (.overSearchPath config bootstrap) t (SymbolName.dotted name') true).1 ≠
      .error (.shadowed name l) := h.fetch_ne_shadowed hs _ true name l
  unfold symbolBytes
  split <;> rename_i hr <;> rw [hr] at hne
  · simpa using hne
  · simp
  · split
    · split <;> rename_i ht
      · intro he
        obtain rfl := Except.error.inj he
        exact transform_ne_shadowed ht
      · simp
    · simp

/-- No request ends with a refusal. -/
theorem Steady.request_ne_shadowed (h : s.Steady t) (hs : '/' ∉ config.resourceSuffix.toList)
    (r : Request) (name : String) (l : Location) :
    (r.run (.overSearchPath config bootstrap) t s).1.error? ≠ some (.shadowed name l) := by
  intro he
  cases r with
  | register p tag =>
    exact registerOrigin_ne_shadowed t p tag s name l (Answer.error?_registered.1 he)
  | install tr => exact install_ne_shadowed tr s name l (Answer.error?_installed.1 he)
  | load name' allowed =>
    rw [Request.run_load] at he
    have hanswer := Answer.error?_symbol.1 he
    exact h.loadDotted_ne_shadowed hs _ allowed name l hanswer
  | isLoaded name' | mark name' | descriptor location | resource name' | resources name' =>
    cases he
  | resourceBytes name' =>
    exact resourceBytes_ne_shadowed (.overSearchPath config bootstrap) t name' s name l
      (Answer.error?_bytes.1 he)
  | rawBytes name' => exact h.rawBytes_ne_shadowed hs name' name l (Answer.error?_bytes.1 he)
  | symbolBytes name' transformed =>
    exact h.symbolBytes_ne_shadowed hs name' transformed name l (Answer.error?_bytes.1 he)

end

/-- The origins of a new search path stand in the tree it was made from. -/
theorem stands_of_register {t : FileTree} (hw : t.HasRealWorkingDirectory) {paths : List Path}
    {r : Registry} {tags : TagStore}
    (h : SearchPath.register t paths Registry.empty TagStore.empty = .ok (r, tags)) :
    ∀ o ∈ r.order, o.Stands t := by
  refine SearchPath.register_induction (P := fun r => ∀ o ∈ r.order, o.Stands t) ?_ ?_ h
  · intro r p tag tags hr o ho
    rcases Registry.mem_order_register ho with ho | ho
    · exact hr o ho
    · exact Origin.stands_of_ofPath hw ho
  · intro o ho
    cases ho

/-- After any requests a pipeline over a new search path still sees the files of its tree. -/
theorem steady_run {config : Config} {bootstrap : BootstrapLoader β} {t : FileTree}
    (hw : t.HasRealWorkingDirectory) {paths : List Path} {f : SearchPath}
    (hf : SearchPath.ofPaths t paths config.resourceSuffix = .ok f) (g : β) (rs : List Request) :
    (((World.start (.overSearchPath config bootstrap) t f g).run (.overSearchPath config bootstrap)
      (rs.map .request)).tree = t) ∧
    ((World.start (.overSearchPath config bootstrap) t f g).run (.overSearchPath config bootstrap)
      (rs.map .request)).pipeline.Steady t := by
  have hstart : (World.start (.overSearchPath config bootstrap) t f g).pipeline.Steady t := by
    obtain ⟨r, tags, hr, rfl⟩ := SearchPath.eq_of_ofPaths hf
    refine ⟨Registry.consistent_empty, ?_, LookupState.faithful_empty t,
      stands_of_register hw hr, LookupState.faithful_empty t⟩
    intro o ho
    cases ho
  have hrun : ∀ (rs : List Request) (w : World SearchPath β), w.tree = t → w.pipeline.Steady t →
      (w.run (.overSearchPath config bootstrap) (rs.map .request)).tree = t ∧
        (w.run (.overSearchPath config bootstrap) (rs.map .request)).pipeline.Steady t := by
    intro rs
    induction rs with
    | nil => exact fun w ht hs => ⟨ht, hs⟩
    | cons r rs ih =>
      intro w ht hs
      rw [List.map_cons, World.run_cons]
      refine ih _ ht ?_
      change (r.run (.overSearchPath config bootstrap) w.tree w.pipeline).2.Steady t
      rw [ht]
      exact hs.request hw r
  exact hrun rs _ rfl hstart

/-- While the files do not change, no request to a pipeline over a search path is refused, and no
registered origin supplies the search path's copy of a symbol that the registry does not have. -/
theorem never_shadowed {config : Config} {bootstrap : BootstrapLoader β} {t : FileTree}
    (hw : t.HasRealWorkingDirectory) (hs : '/' ∉ config.resourceSuffix.toList)
    {paths : List Path} {f : SearchPath}
    (hf : SearchPath.ofPaths t paths config.resourceSuffix = .ok f) (g : β) (rs : List Request) :
    let b := Blueprint.overSearchPath config bootstrap
    let s := ((World.start b t f g).run b (rs.map .request)).pipeline
    (∀ (r : Request) name l, (r.run b t s).1.error? ≠ some (.shadowed name l)) ∧
      ∀ name o found,
        (s.registry.resolve? t (SymbolName.resource name config.resourceSuffix) s.lookups).1 =
          .ok none →
        (s.fallback.registry.resolve? t (SymbolName.resource name config.resourceSuffix)
          s.fallback.lookups).1 = .ok (some (o, found)) →
        s.registry.contains o.location = false := by
  intro b s
  have hsteady : s.Steady t := (steady_run hw hf g rs).2
  refine ⟨fun r name l => hsteady.request_ne_shadowed hs r name l, ?_⟩
  intro name o found absent copy
  exact hsteady.contains_of_absent absent copy

/-- A search path over `/a`, which holds `m`, and a pipeline in which `/b` is registered. -/
theorem never_shadowed_beside :
    let t : FileTree :=
      ⟨[(["a"], .directory), (["a", "m.sym"], .file ByteArray.empty), (["b"], .directory)], []⟩
    let b : Blueprint SearchPath Unit := Blueprint.overSearchPath {} BootstrapLoader.none
    ∃ f, SearchPath.ofPaths t [⟨"/a"⟩] (Config.resourceSuffix {}) = .ok f ∧
      ∃ s o found,
        s = ((World.start b t f ()).run b ([.register ⟨"/b"⟩ none].map .request)).pipeline ∧
        (s.fallback.registry.resolve? t (SymbolName.resource "m" (Config.resourceSuffix {}))
          s.fallback.lookups).1 = .ok (some (o, found)) ∧
        ((Request.load "m" false).run b t s).1.error? ≠ some (.shadowed "m" found.location) ∧
        s.registry.contains o.location = false := by
  have hw : FileTree.HasRealWorkingDirectory
      ⟨[(["a"], .directory), (["a", "m.sym"], .file ByteArray.empty), (["b"], .directory)], []⟩ :=
    fun _ => rfl
  have hs : '/' ∉ (Config.resourceSuffix {}).toList := by decide
  have h := fun f hf =>
    @never_shadowed Unit {} .none _ hw hs [⟨"/a"⟩] f hf () [.register ⟨"/b"⟩ none]
  refine ⟨_, rfl, _, ⟨⟨"/a"⟩, .directory⟩, ⟨.file ⟨"/a/m.sym"⟩, ByteArray.empty⟩, rfl, rfl, ?_, ?_⟩
  · exact (h _ rfl).1 (.load "m" false) "m" _
  · exact (h _ rfl).2 "m" _ _ rfl rfl

end Overlay.Pipeline
