import Overlay.Proofs.Fallback
import Overlay.Proofs.Lookups

/-!
# Symbols that a search path hands over

A pipeline delegates a name only after it has looked at the copy that the search path would serve.
The search path answers with the symbol that it kept first, which may stem from another origin, and
which nobody looks at again. So the origin of a symbol that is handed over is registered exactly if
it was registered after the symbol was kept, or if the look at the copy went astray when it was.
-/

namespace Overlay

/-- A load ends with the fallback loader's own symbol. -/
structure HandsOver {φ β : Type} (b : Blueprint φ β) (t : FileTree) (name : String)
    (allowed : Bool) (s : Pipeline φ β) (x : Symbol) : Prop where
  /-- The symbol is the answer. -/
  answer : (s.loadDotted b t name allowed).1 = .ok x
  /-- The load ends by asking the fallback loader for it. -/
  asked : ∃ s₁ : Pipeline φ β,
    s.loadDotted b t name allowed = Pipeline.orMissing b name (s₁.askFallback b t name)

section

variable {φ β : Type} {b : Blueprint φ β} {t : FileTree} {name : String} {allowed : Bool}
  {s : Pipeline φ β} {x : Symbol}

/-- A load that answers with a symbol has defined it, asked the bootstrap loader, or hands over the
fallback loader's symbol. -/
theorem handsOver_of_ok (h : (s.loadDotted b t name allowed).1 = .ok x) :
    (s.loadDotted b t name allowed).2.defined.get? name = some x ∨
      (∃ s₁ : Pipeline φ β,
        s.loadDotted b t name allowed = Pipeline.orMissing b name (s₁.askBootstrap b t name)) ∨
      HandsOver b t name allowed s x := by
  have hl := Pipeline.loads_loadDotted b t name allowed s
  have hover : (∃ s₁ : Pipeline φ β, s.loadDotted b t name allowed =
      Pipeline.orMissing b name (s₁.askFallback b t name)) → HandsOver b t name allowed s x :=
    fun hasked => ⟨h, hasked⟩
  generalize s.loadDotted b t name allowed = r at hl h hover ⊢
  cases hl with
  | present hx =>
    obtain rfl := Except.ok.inj h
    exact Or.inl hx
  | support => exact Or.inr (Or.inr (hover ⟨s, rfl⟩))
  | bootstrap => exact Or.inr (Or.inl ⟨s, rfl⟩)
  | unfetched | untransformed => cases h
  | @defines undefined hs hb f bytes s₁ s₂ fetched transformed =>
    left
    obtain rfl := Except.ok.inj h
    have hd := congrArg Pipeline.Tables.defined (Pipeline.tables_define t name f bytes s₂)
    change (s₂.define t name f bytes).2.defined = _ at hd
    have hx : (s₂.define t name f bytes).1 =
        ((s₂.define t name f bytes).2.defined.get? name).getD (s₂.newSymbol t name f bytes) := rfl
    rw [hx, hd, Table.get?_insertIfAbsent, if_pos rfl, Option.getD_some]
  | @delegated undefined hs hb s₁ fetched =>
    have hd := Pipeline.delegates_delegate b t name s₁
    generalize s₁.delegate b t name = r at hd h hover ⊢
    cases hd with
    | @absent s₂ copy => exact Or.inr (Or.inl ⟨s₂, rfl⟩)
    | shadowed => cases h
    | @asked found s₂ copy => exact Or.inr (Or.inr (hover ⟨s₂, rfl⟩))

/-- Without a bootstrap loader, every answer that is not defined is handed over. -/
theorem handsOver_of_undefined {config : Config} {fallback : FallbackLoader φ}
    {s : Pipeline φ Unit}
    (h : (s.loadDotted ⟨config, fallback, BootstrapLoader.none⟩ t name allowed).1 = .ok x)
    (undefined : (s.loadDotted ⟨config, fallback, BootstrapLoader.none⟩ t name
      allowed).2.defined.get? name = none) :
    HandsOver ⟨config, fallback, BootstrapLoader.none⟩ t name allowed s x := by
  rcases handsOver_of_ok h with hx | ⟨s₁, he⟩ | hover
  · rw [undefined] at hx
    cases hx
  · rw [he] at h
    cases h
  · exact hover

end

section

variable {β : Type} {config : Config} {bootstrap : BootstrapLoader β}

/-- A search path keeps the symbol that is handed over. -/
theorem HandsOver.kept {t : FileTree} {name : String} {allowed : Bool} {x : Symbol}
    {s : Pipeline SearchPath β}
    (h : HandsOver (.overSearchPath config bootstrap) t name allowed s x) :
    (s.loadDotted (.overSearchPath config bootstrap) t name
      allowed).2.fallback.symbols.get? name = some x := by
  obtain ⟨s₁, hs₁⟩ := h.asked
  have hanswer := h.answer
  rw [hs₁] at hanswer ⊢
  have hf : (Pipeline.orMissing (.overSearchPath config bootstrap) name
      (s₁.askFallback (.overSearchPath config bootstrap) t name)).2.fallback =
      (s₁.fallback.loadSymbol t name).2 :=
    congrArg (·.2.2) (Pipeline.sources_orMissing (.overSearchPath config bootstrap) name _)
  rw [hf]
  apply SearchPath.kept_of_loadSymbol
  change (s₁.askFallback (.overSearchPath config bootstrap) t name).1 = some x
  generalize s₁.askFallback (.overSearchPath config bootstrap) t name = r at hanswer
  rcases r with ⟨_ | y, s₂⟩
  · cases hanswer
  · exact congrArg some (Except.ok.inj hanswer)

/-- A symbol that is kept anew right after a look at its copy stems from the origin of the copy. -/
theorem SearchPath.origin_of_resolve_loadSymbol {t : FileTree} {name other : String}
    {f : SearchPath} {found : Resource} {x : Symbol} (hc : f.registry.Consistent)
    (copy : (f.resolve t (SymbolName.resource name f.resourceSuffix)).1 = some found)
    (absent : f.symbols.get? other = none)
    (hx : ((f.resolve t (SymbolName.resource name f.resourceSuffix)).2.loadSymbol t
      name).2.symbols.get? other = some x) :
    name = other ∧ x.definedBy = .fallback ∧ ∃ o ∈ f.registry.order,
      x.codeSource = some o.location ∧
        found.location = o.locate (SymbolName.resource name f.resourceSuffix) := by
  have habsent : (f.resolve t (SymbolName.resource name f.resourceSuffix)).2.symbols.get? other =
      none := by
    rw [(looked_resolve t _ f).symbols_eq]
    exact absent
  obtain ⟨rfl, hby, o', found', hcopy', hsource⟩ := origin_of_loadSymbol habsent hx
  obtain ⟨o, hcopy⟩ := resolve_fst copy
  rw [resolve_snd] at hcopy'
  have hagain := hc.resolve?_again t (SymbolName.resource name f.resourceSuffix) f.lookups
  obtain ⟨rfl, rfl⟩ := Prod.mk.inj
    (Option.some.inj (Except.ok.inj (hcopy'.symm.trans (hagain.trans hcopy))))
  have ho : o' ∈ f.registry.order := Registry.mem_of_resolveIn (Prod.ext hcopy rfl)
  exact ⟨rfl, hby, o', ho, hsource, Registry.location_of_resolveIn hcopy⟩

/-- An event is a load, which registers nothing, or only looks at the search path. -/
theorem World.asks_step (w : World SearchPath β) (e : Event) :
    (∃ name allowed, e = .request (.load name allowed) ∧
      (w.step (.overSearchPath config bootstrap) e).pipeline.registry = w.pipeline.registry ∧
      Pipeline.Asks config w.tree (SymbolName.dotted name) w.pipeline
        (w.step (.overSearchPath config bootstrap) e).pipeline.fallback) ∨
      w.pipeline.fallback.Looked
        (w.step (.overSearchPath config bootstrap) e).pipeline.fallback := by
  cases e with
  | files t => exact Or.inr (.refl _)
  | request r =>
    change (∃ name allowed, _ ∧
      (r.run (.overSearchPath config bootstrap) w.tree w.pipeline).2.registry = _ ∧
      Pipeline.Asks config w.tree (SymbolName.dotted name) w.pipeline
        (r.run (.overSearchPath config bootstrap) w.tree w.pipeline).2.fallback) ∨
      w.pipeline.fallback.Looked
        (r.run (.overSearchPath config bootstrap) w.tree w.pipeline).2.fallback
    by_cases hr : ∃ name allowed, r = .load name allowed
    · obtain ⟨name, allowed, rfl⟩ := hr
      rw [Request.run_load]
      have hregistry := Pipeline.registry_loadDotted (.overSearchPath config bootstrap) w.tree
        (SymbolName.dotted name) allowed w.pipeline
      have hasks := Pipeline.asks_loadDotted config bootstrap w.tree (SymbolName.dotted name)
        allowed w.pipeline
      exact Or.inl ⟨name, allowed, rfl, hregistry, hasks⟩
    · right
      apply Pipeline.looked_request
      intro name allowed he
      exact hr ⟨name, allowed, he⟩

/-- No event loses a symbol that the search path keeps. -/
theorem World.grows_step (w : World SearchPath β) (e : Event) :
    w.pipeline.fallback.Grows
      (w.step (.overSearchPath config bootstrap) e).pipeline.fallback := by
  rcases w.asks_step e with ⟨name, allowed, -, -, hasks⟩ | looked
  · generalize (w.step (.overSearchPath config bootstrap) e).pipeline.fallback = f at hasks ⊢
    cases hasks with
    | looks looked => exact looked.grows
    | support hs => exact SearchPath.grows_loadSymbol w.tree _ _
    | @delegates f found looked copy =>
      have hlooked := looked.trans (SearchPath.looked_resolve w.tree
        (SymbolName.resource (SymbolName.dotted name) config.resourceSuffix) f)
      exact hlooked.grows.trans (SearchPath.grows_loadSymbol w.tree _ _)
  · exact looked.grows

/-- Where the search path keeps a symbol anew, a copy of it was looked at and was not refused. -/
theorem World.origin_of_newly_kept {w : World SearchPath β} {e : Event}
    (hc : w.pipeline.fallback.registry.Consistent)
    (hsuffix : w.pipeline.fallback.resourceSuffix = config.resourceSuffix) {name : String}
    {x : Symbol} (hs : config.isSupport name = false)
    (absent : w.pipeline.fallback.symbols.get? name = none)
    (hx : (w.step (.overSearchPath config bootstrap) e).pipeline.fallback.symbols.get? name =
      some x) :
    x.definedBy = .fallback ∧
      (∃ spelling allowed, SymbolName.dotted spelling = name ∧
        e = .request (.load spelling allowed)) ∧
      (w.step (.overSearchPath config bootstrap) e).pipeline.registry = w.pipeline.registry ∧
      ∃ o ∈ w.pipeline.fallback.registry.order, x.codeSource = some o.location ∧
        w.pipeline.registry.isShadowed w.tree
          (o.locate (SymbolName.resource name config.resourceSuffix))
          (SymbolName.resource name config.resourceSuffix) = false := by
  have hlooked : ∀ {f : SearchPath}, w.pipeline.fallback.Looked f →
      f.symbols.get? name ≠ some x := by
    intro f h hx
    rw [h.symbols_eq, absent] at hx
    cases hx
  rcases w.asks_step e with ⟨spelling, allowed, rfl, hregistry, hasks⟩ | looked
  · generalize (w.step (.overSearchPath config bootstrap)
      (.request (.load spelling allowed))).pipeline.fallback = f at hasks hx
    cases hasks with
    | looks looked => exact absurd hx (hlooked looked)
    | support hsupport =>
      obtain ⟨rfl, -⟩ := SearchPath.origin_of_loadSymbol absent hx
      rw [hs] at hsupport
      cases hsupport
    | @delegates f found looked copy unshadowed =>
      rw [← looked.registry_eq] at hc
      rw [← hsuffix, ← looked.suffix_eq] at copy hx unshadowed
      rw [← looked.symbols_eq] at absent
      obtain ⟨rfl, hby, o, ho, hsource, hlocation⟩ :=
        SearchPath.origin_of_resolve_loadSymbol hc copy absent hx
      rw [hlocation, looked.suffix_eq, hsuffix] at unshadowed
      rw [looked.registry_eq] at ho
      exact ⟨hby, ⟨spelling, allowed, rfl, rfl⟩, hregistry, o, ho, hsource, unshadowed⟩
  · exact absurd hx (hlooked looked)

/-- An event registers the origin of a symbol that the search path keeps already. -/
structure RegistersKept (name : String) (x : Symbol) (p : Path) (w : World SearchPath β)
    (e : Event) (w' : World SearchPath β) : Prop where
  /-- The event is a registration. -/
  registration : ∃ q tag, e = .request (.register q tag)
  /-- The symbol is kept. -/
  kept : w.pipeline.fallback.symbols.get? name = some x
  /-- The origin was not registered. -/
  unregistered : w.pipeline.registry.contains p = false
  /-- The origin is registered. -/
  registered : w'.pipeline.registry.contains p = true

/-- An event makes the search path keep a symbol of a registered origin, since the copy that was
looked at leads to another path, as when a link has taken the place of the origin, or to none. -/
structure KeepsAstray (config : Config) (name : String) (x : Symbol) (p : Path)
    (w : World SearchPath β) (e : Event) (w' : World SearchPath β) : Prop where
  /-- The event is a load of the name. -/
  load : ∃ spelling allowed, SymbolName.dotted spelling = name ∧
    e = .request (.load spelling allowed)
  /-- The symbol was not kept. -/
  absent : w.pipeline.fallback.symbols.get? name = none
  /-- The symbol is kept. -/
  kept : w'.pipeline.fallback.symbols.get? name = some x
  /-- The origin is registered. -/
  registered : w.pipeline.registry.contains p = true
  /-- The copy in the origin does not lead back to it. -/
  astray : ∃ o ∈ w.pipeline.fallback.registry.order, o.location = p ∧
    ∀ q, (o.locate (SymbolName.resource name config.resourceSuffix)).codeSource? w.tree
      (SymbolName.resource name config.resourceSuffix) = some q → q.components ≠ p.components

/-- Some event of a run registered the origin of a kept symbol, or made the search path keep it
although its origin was registered. -/
def World.Overtaken (config : Config) (bootstrap : BootstrapLoader β) (w : World SearchPath β)
    (es : List Event) (name : String) (x : Symbol) (p : Path) : Prop :=
  w.Happened (.overSearchPath config bootstrap) es (RegistersKept name x p) ∨
    w.Happened (.overSearchPath config bootstrap) es (KeepsAstray config name x p)

/-- What overtook a symbol did so before the last event of the run or at it. -/
theorem World.overtaken_snoc {w : World SearchPath β} {es : List Event} {e : Event}
    {name : String} {x : Symbol} {p : Path} :
    w.Overtaken config bootstrap (es ++ [e]) name x p ↔
      w.Overtaken config bootstrap es name x p ∨
        RegistersKept name x p (w.run (.overSearchPath config bootstrap) es) e
          ((w.run (.overSearchPath config bootstrap) es).step
            (.overSearchPath config bootstrap) e) ∨
        KeepsAstray config name x p (w.run (.overSearchPath config bootstrap) es) e
          ((w.run (.overSearchPath config bootstrap) es).step
            (.overSearchPath config bootstrap) e) := by
  unfold Overtaken
  rw [happened_snoc, happened_snoc]
  tauto

/-- The origin of an overtaken symbol is registered. -/
theorem World.Overtaken.registered {w : World SearchPath β} {es : List Event} {name : String}
    {x : Symbol} {p : Path} (h : w.Overtaken config bootstrap es name x p) :
    (w.run (.overSearchPath config bootstrap) es).pipeline.registry.contains p = true := by
  rcases h with ⟨before, e, later, rfl, hkind⟩ | ⟨before, e, later, rfl, hkind⟩
  · rw [run_append, run_cons]
    exact contains_run hkind.registered later
  · rw [run_append, run_cons]
    exact contains_run (contains_step hkind.registered e) later

/-- The origin of every symbol that a search path keeps is known, and how it got registered. -/
structure Traced (config : Config) (bootstrap : BootstrapLoader β) (w₀ : World SearchPath β)
    (es : List Event) (w : World SearchPath β) : Prop where
  /-- The run has led to the world. -/
  reached : w = w₀.run (.overSearchPath config bootstrap) es
  /-- The origins of the search path have different locations. -/
  consistent : w.pipeline.fallback.registry.Consistent
  /-- The suffix is that of the configuration. -/
  suffix_eq : w.pipeline.fallback.resourceSuffix = config.resourceSuffix
  /-- A kept symbol has an origin, which is registered only if it was overtaken. -/
  traced : ∀ name x, config.isSupport name = false →
    w.pipeline.fallback.symbols.get? name = some x →
      ∃ p, x.codeSource = some p ∧ x.definedBy = .fallback ∧
        (w.pipeline.registry.contains p = true → w₀.Overtaken config bootstrap es name x p)

/-- Every event leaves the symbols traced. -/
theorem Traced.step {w₀ w : World SearchPath β} {es : List Event}
    (h : Traced config bootstrap w₀ es w) (e : Event) :
    Traced config bootstrap w₀ (es ++ [e]) (w.step (.overSearchPath config bootstrap) e) := by
  have hgrows := @World.grows_step β config bootstrap w e
  refine ⟨?_, ?_, hgrows.suffix_eq.trans h.suffix_eq, ?_⟩
  · rw [World.run_snoc, h.reached]
  · rw [hgrows.registry_eq]
    exact h.consistent
  intro name x hs hx
  cases hkept : w.pipeline.fallback.symbols.get? name with
  | some y =>
    obtain rfl : y = x := Option.some.inj ((hgrows.keeps name y hkept).symm.trans hx)
    obtain ⟨p, hp, hby, hovertaken⟩ := h.traced name y hs hkept
    refine ⟨p, hp, hby, fun hregistered => World.overtaken_snoc.2 ?_⟩
    by_cases hbefore : w.pipeline.registry.contains p = true
    · exact Or.inl (hovertaken hbefore)
    · have hnot : w.pipeline.registry.contains p = false := eq_false_of_ne_true hbefore
      have hregistration := World.registration_of_contains_step hnot hregistered
      rw [← h.reached]
      exact Or.inr (Or.inl ⟨hregistration, hkept, hnot, hregistered⟩)
  | none =>
    obtain ⟨hby, hload, hsame, o, ho, hp, hshadowed⟩ :=
      World.origin_of_newly_kept h.consistent h.suffix_eq hs hkept hx
    refine ⟨o.location, hp, hby, fun hregistered => World.overtaken_snoc.2 ?_⟩
    rw [hsame] at hregistered
    have hastray : ∀ q, (o.locate (SymbolName.resource name config.resourceSuffix)).codeSource?
        w.tree (SymbolName.resource name config.resourceSuffix) = some q →
          q.components ≠ o.location.components := by
      intro q hq he
      rw [Registry.isShadowed, hq] at hshadowed
      have hnot : w.pipeline.registry.contains q = false := hshadowed
      rw [Registry.contains_congr w.pipeline.registry he, hregistered] at hnot
      cases hnot
    rw [← h.reached]
    exact Or.inr (Or.inr ⟨hload, hkept, hx, hregistered, o, ho, rfl, hastray⟩)

/-- Every run over a new search path leaves the symbols traced. -/
theorem traced_run {t₀ : FileTree} {paths : List Path} {f : SearchPath}
    (hf : SearchPath.ofPaths t₀ paths config.resourceSuffix = .ok f) (t : FileTree) (g : β)
    (es : List Event) :
    Traced config bootstrap (.start (.overSearchPath config bootstrap) t f g) es
      ((World.start (.overSearchPath config bootstrap) t f g).run
        (.overSearchPath config bootstrap) es) := by
  obtain ⟨r, tags, hr, rfl⟩ := SearchPath.eq_of_ofPaths hf
  have hconsistent : r.Consistent :=
    SearchPath.register_induction (P := Registry.Consistent)
      (fun _ p tag tags h => h.register t₀ p tag tags) Registry.consistent_empty hr
  refine World.run_induction ⟨rfl, hconsistent, rfl, ?_⟩ (fun es e w h => h.step e) es
  intro name x hs hx
  cases hx

/-- The origin of a symbol that is handed over is registered exactly if the symbol was overtaken:
its origin was registered after the search path had kept it, or the look at its copy went astray
when it was. -/
theorem registered_iff_of_handsOver {t₀ : FileTree} {paths : List Path} {f : SearchPath}
    (hf : SearchPath.ofPaths t₀ paths config.resourceSuffix = .ok f) (t : FileTree) (g : β)
    (es : List Event) (name : String) (allowed : Bool) (x : Symbol)
    (hs : config.isSupport (SymbolName.dotted name) = false) :
    let b := Blueprint.overSearchPath config bootstrap
    let w₀ := World.start b t f g
    let w := w₀.run b es
    let e := Event.request (.load name allowed)
    HandsOver b w.tree (SymbolName.dotted name) allowed w.pipeline x →
      ∃ p, x.codeSource = some p ∧ x.definedBy = .fallback ∧
        ((w.step b e).pipeline.registry.contains p = true ↔
          w₀.Overtaken config bootstrap (es ++ [e]) (SymbolName.dotted name) x p) := by
  intro b w₀ w e h
  have htraced : Traced config bootstrap w₀ (es ++ [e]) (w₀.run b (es ++ [e])) :=
    traced_run hf t g (es ++ [e])
  have hkept : (w.step b e).pipeline.fallback.symbols.get? (SymbolName.dotted name) = some x := by
    change ((Request.load name allowed).run b w.tree w.pipeline).2.fallback.symbols.get? _ = _
    rw [Request.run_load]
    exact h.kept
  have hrun : w₀.run b (es ++ [e]) = w.step b e := World.run_snoc b w₀ es e
  rw [hrun] at htraced
  obtain ⟨p, hp, hby, hovertaken⟩ := htraced.traced _ x hs hkept
  refine ⟨p, hp, hby, hovertaken, fun hwas => ?_⟩
  have hregistered := hwas.registered
  rw [← hrun]
  exact hregistered

end

/-- A search path over `/A` and `/B`, which both hold `m`. Its symbol from `/A` is overtaken when
`/A` is registered without it. -/
theorem overtaken_of_handsOver :
    let t : FileTree :=
      ⟨[(["A"], .directory), (["A", "m.sym"], .file ByteArray.empty), (["B"], .directory),
        (["B", "m.sym"], .file ByteArray.empty)], []⟩
    let t' : FileTree :=
      ⟨[(["A"], .directory), (["B"], .directory), (["B", "m.sym"], .file ByteArray.empty)], []⟩
    let b : Blueprint SearchPath Unit := Blueprint.overSearchPath {} BootstrapLoader.none
    let es : List Event :=
      [.request (.load "m" false), .files t', .request (.register ⟨"/A"⟩ none)]
    let x : Symbol := ⟨"m", ByteArray.empty, some ⟨"/A"⟩, Descriptor.empty, .fallback⟩
    ∃ f, SearchPath.ofPaths t [⟨"/A"⟩, ⟨"/B"⟩] (Config.resourceSuffix {}) = .ok f ∧
      HandsOver b t' (SymbolName.dotted "m") false ((World.start b t f ()).run b es).pipeline x ∧
        (World.start b t f ()).Overtaken {} .none (es ++ [.request (.load "m" false)])
          (SymbolName.dotted "m") x ⟨"/A"⟩ := by
  intro t t' b es x
  have hovertaken : ∀ f, SearchPath.ofPaths t [⟨"/A"⟩, ⟨"/B"⟩] (Config.resourceSuffix {}) = .ok f →
      HandsOver b t' (SymbolName.dotted "m") false ((World.start b t f ()).run b es).pipeline x →
      (((World.start b t f ()).run b es).step b
        (.request (.load "m" false))).pipeline.registry.contains ⟨"/A"⟩ = true →
      (World.start b t f ()).Overtaken {} .none (es ++ [.request (.load "m" false)])
        (SymbolName.dotted "m") x ⟨"/A"⟩ := by
    intro f hf hover hregistered
    obtain ⟨p, hp, -, hiff⟩ :=
      @registered_iff_of_handsOver Unit {} .none t [⟨"/A"⟩, ⟨"/B"⟩] f hf t () es "m" false x
        (by decide) hover
    obtain rfl := Option.some.inj hp
    unfold b at hregistered
    exact hiff.1 hregistered
  refine ⟨_, rfl, ?hover, hovertaken _ rfl ?hover ?registered⟩
  case hover =>
    apply handsOver_of_undefined
    · decide +kernel
    · decide +kernel
  case registered => decide +kernel

/-- A symbol of a registered origin is handed over: the search path kept it from `/A`, which was
registered when it did not hold the symbol any more. -/
theorem handsOver_registered :
    let t : FileTree :=
      ⟨[(["A"], .directory), (["A", "m.sym"], .file ByteArray.empty), (["B"], .directory),
        (["B", "m.sym"], .file ByteArray.empty)], []⟩
    let t' : FileTree :=
      ⟨[(["A"], .directory), (["B"], .directory), (["B", "m.sym"], .file ByteArray.empty)], []⟩
    let b : Blueprint SearchPath Unit := Blueprint.overSearchPath {} BootstrapLoader.none
    let es : List Event :=
      [.request (.load "m" false), .files t', .request (.register ⟨"/A"⟩ none)]
    let x : Symbol := ⟨"m", ByteArray.empty, some ⟨"/A"⟩, Descriptor.empty, .fallback⟩
    ∃ f, SearchPath.ofPaths t [⟨"/A"⟩, ⟨"/B"⟩] (Config.resourceSuffix {}) = .ok f ∧
      b.config.isSupport "m" = false ∧ b.config.isBootstrap "m" = false ∧
        HandsOver b t' "m" false ((World.start b t f ()).run b es).pipeline x ∧
        ((World.start b t f ()).run b es).pipeline.registry.contains ⟨"/A"⟩ = true := by
  intro t t' b es x
  refine ⟨_, rfl, by decide, by decide, ?_, ?_⟩
  · apply handsOver_of_undefined
    · decide +kernel
    · decide +kernel
  · decide +kernel

end Overlay
