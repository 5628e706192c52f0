import Overlay.ModuleLoader
import Overlay.Proofs.Defining

/-!
# Pipelines with module loaders

Any number of module loaders may work over one pipeline, each with origins of its own and all with
the pipeline's tags. They come in at any time and their requests mix with those to the pipeline. A
module loader consults its parent by requests that register nothing, and besides adds origins to its
own registry, which tags them in the shared store.
-/

namespace Overlay

variable {φ β : Type}

namespace Pipeline

/-- What a pipeline becomes through requests that register nothing and ask for no descriptors but
those of some origins. -/
inductive Consulted (b : Blueprint φ β) (t : FileTree) (os : List Origin) (s : Pipeline φ β) :
    Pipeline φ β → Prop
  /-- Nothing was asked. -/
  | refl : Consulted b t os s s
  /-- One more request was carried out. -/
  | request {s' : Pipeline φ β} (before : Consulted b t os s s') (r : Request)
      (quiet : ∀ p tag, r ≠ .register p tag)
      (described : ∀ p, r = .descriptor p → ∃ o ∈ os, o.location = p) :
      Consulted b t os s (r.run b t s').2

variable {b : Blueprint φ β} {t : FileTree} {os : List Origin} {s s' : Pipeline φ β}

/-- Who is consulted keeps the origins. -/
theorem Consulted.registry_eq (h : Consulted b t os s s') : s'.registry = s.registry := by
  induction h with
  | refl => rfl
  | @request s' before r quiet described ih =>
    rcases Request.registry_run b t r s' with ⟨p, tag, rfl, -⟩ | he
    · exact absurd rfl (quiet p tag)
    · exact he.trans ih

/-- Who is consulted keeps the tags. -/
theorem Consulted.tags_eq (h : Consulted b t os s s') : s'.tags = s.tags := by
  induction h with
  | refl => rfl
  | request before r quiet described ih => exact (Request.tags_run b t quiet _).trans ih

/-- Who is consulted keeps the symbols that are defined. -/
theorem Consulted.get?_defined (h : Consulted b t os s s') {n : String} {x : Symbol}
    (hx : s.defined.get? n = some x) : s'.defined.get? n = some x := by
  induction h with
  | refl => exact hx
  | @request s' before r quiet described ih =>
    exact World.get?_step (w := ⟨t, s'⟩) ih (.request r)

/-- Who is consulted keeps what every request keeps. -/
theorem Consulted.keeps {P : Pipeline φ β → Prop} (h : Consulted b t os s s')
    (hrequest : ∀ (r : Request) s, P s → P (r.run b t s).2) (hs : P s) : P s' := by
  induction h with
  | refl => exact hs
  | request before r quiet described ih => exact hrequest r _ ih

end Pipeline

/-- The choice between a symbol and a module's own copy asks the module's search path at most twice,
so it keeps what every question to it keeps. -/
theorem Precedence.choose_keeps {σ : Type} {P : σ → Prop} {l : LocalLookup σ}
    (hhas : ∀ resource s, P s → P (l.has resource s).2)
    (hload : ∀ name s, P s → P (l.load name s).2) (c : Config) (tags : TagStore) (name : String)
    (candidate : Symbol) {s : σ} (hs : P s) : P (choose c tags l name candidate s).2 := by
  have hasked := hhas (SymbolName.resource name c.resourceSuffix) s hs
  unfold choose
  generalize l.has (SymbolName.resource name c.resourceSuffix) s = r at hasked
  rcases r with ⟨_ | _, s₁⟩
  · exact hasked
  · dsimp only
    split
    · have hloaded := hload name s₁ hasked
      generalize l.load name s₁ = r at hloaded
      rcases r with ⟨_ | own, s₂⟩ <;> exact hloaded
    · exact hasked

namespace ModuleLoader

/-- What a module loader and its parent keep while the module loader answers. -/
structure Proceeds (b : Blueprint φ β) (t : FileTree) (x y : ModuleLoader × Pipeline φ β) :
    Prop where
  /-- The module loader has the same origins. -/
  registry_eq : y.1.registry = x.1.registry
  /-- It keeps its symbols. -/
  kept : ∀ n symbol, x.1.symbols.get? n = some symbol → y.1.symbols.get? n = some symbol
  /-- The parent was consulted, about no descriptors but those of the module's origins. -/
  parent : Pipeline.Consulted b t x.1.registry.order x.2 y.2

variable {b : Blueprint φ β} {t : FileTree} {x : ModuleLoader × Pipeline φ β} {m : ModuleLoader}
  {parent : Pipeline φ β}

namespace Proceeds

theorem refl (x : ModuleLoader × Pipeline φ β) : Proceeds b t x x :=
  ⟨rfl, fun _ _ h => h, .refl⟩

/-- Views and notices may change freely. -/
theorem lookups (h : Proceeds b t x (m, parent)) (lookups : LookupState) :
    Proceeds b t x ({ m with lookups }, parent) := ⟨h.registry_eq, h.kept, h.parent⟩

/-- The parent may be consulted once more. -/
theorem consult (h : Proceeds b t x (m, parent)) (r : Request)
    (quiet : ∀ p tag, r ≠ .register p tag)
    (described : ∀ p, r = .descriptor p → ∃ o ∈ m.registry.order, o.location = p) :
    Proceeds b t x (m, (r.run b t parent).2) :=
  ⟨h.registry_eq, h.kept, h.parent.request r quiet fun p hp => by
    obtain ⟨o, ho, hl⟩ := described p hp
    rw [show m.registry = x.1.registry from h.registry_eq] at ho
    exact ⟨o, ho, hl⟩⟩

/-- A symbol may be kept. -/
theorem keep (h : Proceeds b t x (m, parent)) (symbol : Symbol) :
    Proceeds b t x ((m.keep symbol).2, parent) where
  registry_eq := h.registry_eq
  kept n kept hn := by
    have hm : m.symbols.get? n = some kept := h.kept n kept hn
    change (m.symbols.insertIfAbsent symbol.name symbol).get? n = some kept
    rw [Table.get?_insertIfAbsent]
    by_cases he : n = symbol.name
    · rw [if_pos he, ← he, hm, Option.getD_some]
    · rw [if_neg he, hm]
  parent := h.parent

theorem hasLocal (h : Proceeds b t x (m, parent)) (resource : String) :
    Proceeds b t x ((m.hasLocal t resource).2, parent) := h.lookups _

theorem loadLocal (h : Proceeds b t x (m, parent)) (name : String) :
    Proceeds b t x (m.loadLocal b t name parent).2 := by
  unfold ModuleLoader.loadLocal
  split
  · exact h
  · split
    · rename_i o found lookups hfound
      have ho : o ∈ m.registry.order := Registry.mem_of_resolveIn hfound
      refine ((h.lookups lookups).consult (.descriptor o.location) nofun ?_).keep _
      rintro p hp
      exact ⟨o, ho, Request.descriptor.inj hp⟩
    · exact h.lookups _

theorem loadDotted (h : Proceeds b t x (m, parent)) (name : String) :
    Proceeds b t x (m.loadDotted b t name parent).2 := by
  have hparent := h.consult (.load name false) nofun nofun
  unfold ModuleLoader.loadDotted
  rw [show ((Request.load name false).run b t parent).2 = (parent.load b t name).2 from rfl]
    at hparent
  generalize parent.load b t name = r at hparent
  split
  · exact h
  · rcases r with ⟨e | candidate, s⟩
    · dsimp only
      split
      · have hlocal := hparent.loadLocal name
        generalize m.loadLocal b t name s = r at hlocal
        rcases r with ⟨_ | symbol, m', s'⟩ <;> exact hlocal
      · exact hparent
    · exact Precedence.choose_keeps (P := Proceeds b t x) (l := ownLookup b t)
        (fun resource _ h => h.hasLocal resource) (fun name _ h => h.loadLocal name) _ _ _ _ hparent

theorem resource (h : Proceeds b t x (m, parent)) (name : String) :
    Proceeds b t x (m.resource b t name parent).2 := by
  have hparent := h.consult (.resource name) nofun nofun
  unfold ModuleLoader.resource Precedence.unlessReserved
  rw [show ((Request.resource name).run b t parent).2 = (parent.resource b t name).2 from rfl]
    at hparent
  generalize parent.resource b t name = r at hparent
  split
  · exact h
  · rcases r with ⟨_ | l, s⟩
    · exact hparent.lookups _
    · exact hparent

theorem resources (h : Proceeds b t x (m, parent)) (name : String) :
    Proceeds b t x (m.resources b t name parent).2 := by
  have hparent := h.consult (.resources name) nofun nofun
  unfold ModuleLoader.resources Precedence.unlessReserved
  split
  · exact h
  · exact hparent.lookups _

end Proceeds

end ModuleLoader

/-- A request to a module loader. -/
inductive ModuleRequest where
  /-- Add the origin that a path leads to. -/
  | addOrigin (path : Path)
  /-- Load a symbol. -/
  | load (name : String)
  /-- Load a symbol from the module's own origins. -/
  | loadLocal (name : String)
  /-- Ask whether one of the module's own origins has a resource. -/
  | hasLocal (name : String)
  /-- Ask for the location of a resource. -/
  | resource (name : String)
  /-- Ask for all locations of a resource. -/
  | resources (name : String)

namespace ModuleRequest

/-- Carry out a request; what it answers is told by the operation that it stands for. -/
def run (b : Blueprint φ β) (t : FileTree) :
    ModuleRequest → ModuleLoader → Pipeline φ β → ModuleLoader × Pipeline φ β
  | addOrigin p, m, parent => (m.addOrigin t p parent).2
  | load name, m, parent => (m.load b t name parent).2
  | loadLocal name, m, parent => (m.loadLocal b t name parent).2
  | hasLocal name, m, parent => ((m.hasLocal t name).2, parent)
  | resource name, m, parent => (m.resource b t name parent).2
  | resources name, m, parent => (m.resources b t name parent).2

/-- Only adding an origin does more than to proceed. -/
theorem proceeds_run {r : ModuleRequest} (h : ∀ p, r ≠ addOrigin p) (b : Blueprint φ β)
    (t : FileTree) (m : ModuleLoader) (parent : Pipeline φ β) :
    ModuleLoader.Proceeds b t (m, parent) (r.run b t m parent) := by
  have hrefl : ModuleLoader.Proceeds b t (m, parent) (m, parent) := .refl _
  cases r with
  | addOrigin p => exact absurd rfl (h p)
  | load name => exact hrefl.loadDotted _
  | loadLocal name => exact hrefl.loadLocal name
  | hasLocal name => exact hrefl.hasLocal name
  | resource name => exact hrefl.resource name
  | resources name => exact hrefl.resources name

/-- A module loader keeps its symbols, whatever it is asked. -/
theorem get?_run (b : Blueprint φ β) (t : FileTree) (r : ModuleRequest) {m : ModuleLoader}
    (parent : Pipeline φ β) {n : String} {x : Symbol} (hx : m.symbols.get? n = some x) :
    (r.run b t m parent).1.symbols.get? n = some x := by
  by_cases h : ∃ p, r = addOrigin p
  · obtain ⟨p, rfl⟩ := h
    exact hx
  · exact (proceeds_run (fun p he => h ⟨p, he⟩) b t m parent).kept n x hx

/-- The parent keeps its definitions, whatever the module loader is asked. -/
theorem get?_defined_run (b : Blueprint φ β) (t : FileTree) (r : ModuleRequest) (m : ModuleLoader)
    {parent : Pipeline φ β} {n : String} {x : Symbol} (hx : parent.defined.get? n = some x) :
    (r.run b t m parent).2.defined.get? n = some x := by
  by_cases h : ∃ p, r = addOrigin p
  · obtain ⟨p, rfl⟩ := h
    exact hx
  · exact (proceeds_run (fun p he => h ⟨p, he⟩) b t m parent).parent.get?_defined hx

end ModuleRequest

/-- What happens next to a pipeline and its module loaders. -/
inductive Occurrence where
  /-- A request to the pipeline, or a change of the files. -/
  | parent (e : Event)
  /-- A new module loader comes in. -/
  | join (name : String)
  /-- A request to one of the module loaders. -/
  | module (i : Nat) (r : ModuleRequest)

/-- A pipeline, its files and its module loaders. -/
structure Ensemble (φ β : Type) extends World φ β where
  /-- The module loaders, in the order in which they came in. -/
  modules : List ModuleLoader

/-- A loader that registers origins. -/
inductive Party where
  /-- The pipeline. -/
  | pipeline
  /-- A module loader. -/
  | module (i : Nat)
  deriving DecidableEq

/-- The registration that an occurrence asks for: at which loader, of which path, with which tag. -/
def Occurrence.registration? : Occurrence → Option (Party × Path × Option OriginTag)
  | parent (.request (.register p tag)) => some (.pipeline, p, tag)
  | module i (.addOrigin p) => some (.module i, p, some .moduleLocal)
  | _ => none

/-- A registration is a request to the pipeline, or an origin that a module loader adds. -/
theorem Occurrence.registration?_eq_some {o : Occurrence} {party : Party} {q : Path}
    {tag : Option OriginTag} (h : o.registration? = some (party, q, tag)) :
    party = .pipeline ∧ o = .parent (.request (.register q tag)) ∨
      ∃ i, party = .module i ∧ tag = some .moduleLocal ∧ o = .module i (.addOrigin q) := by
  unfold registration? at h
  split at h
  · cases h
    exact Or.inl ⟨rfl, rfl⟩
  · cases h
    exact Or.inr ⟨_, rfl, rfl, rfl⟩
  · cases h

namespace Ensemble

/-- A new pipeline without module loaders. -/
def start (b : Blueprint φ β) (t : FileTree) (fallback : φ) (bootstrap : β) : Ensemble φ β :=
  ⟨World.start b t fallback bootstrap, []⟩

/-- Let one thing happen. A request to a module loader that is not there has no effect. -/
def step (b : Blueprint φ β) (y : Ensemble φ β) : Occurrence → Ensemble φ β
  | .parent e => { y with toWorld := y.toWorld.step b e }
  | .join name => { y with modules := y.modules ++ [ModuleLoader.ofName name] }
  | .module i r =>
    match y.modules[i]? with
    | some m =>
      let (m, pipeline) := r.run b y.tree m y.pipeline
      { y with pipeline, modules := y.modules.set i m }
    | none => y

/-- Let things happen in turn. -/
def run (b : Blueprint φ β) (y : Ensemble φ β) (os : List Occurrence) : Ensemble φ β :=
  os.foldl (step b) y

theorem run_cons (b : Blueprint φ β) (y : Ensemble φ β) (o : Occurrence) (os : List Occurrence) :
    y.run b (o :: os) = (y.step b o).run b os := rfl

/-- What each occurrence of a run keeps, the run keeps. -/
theorem run_induction_of_mem {b : Blueprint φ β} {P : Ensemble φ β → Prop} {y : Ensemble φ β}
    {os : List Occurrence} (h : P y) (hstep : ∀ y, ∀ o ∈ os, P y → P (y.step b o)) :
    P (y.run b os) :=
  List.foldlRecOn os (step b) h fun y hy o ho => hstep y o ho hy

/-- What every occurrence keeps, every run keeps. -/
theorem run_induction {b : Blueprint φ β} {P : Ensemble φ β → Prop} {y : Ensemble φ β}
    (h : P y) (hstep : ∀ y o, P y → P (y.step b o)) (os : List Occurrence) : P (y.run b os) :=
  run_induction_of_mem h fun y o _ hy => hstep y o hy

/-- The registry of a loader. -/
def registryOf? (y : Ensemble φ β) : Party → Option Registry
  | .pipeline => some y.pipeline.registry
  | .module i => (y.modules[i]?).map (·.registry)

/-- Whether a loader has registered a location. -/
def registered (y : Ensemble φ β) (party : Party) (p : Path) : Bool :=
  (y.registryOf? party).any (·.contains p)

/-- The registries of all loaders are consistent. -/
def Consistent (y : Ensemble φ β) : Prop :=
  ∀ party r, y.registryOf? party = some r → r.Consistent

variable {b : Blueprint φ β} {y : Ensemble φ β} {o : Occurrence} {party : Party} {q : Path}
  {tag : Option OriginTag} {r : Registry}

/-- In consistent registries the one of every module loader is consistent. -/
theorem Consistent.module (h : y.Consistent) {m : ModuleLoader} (hm : m ∈ y.modules) :
    m.registry.Consistent := by
  obtain ⟨i, hi⟩ := List.mem_iff_getElem?.1 hm
  exact h (.module i) m.registry (by rw [registryOf?, hi, Option.map_some])

theorem step_module {i : Nat} {m : ModuleLoader} (hm : y.modules[i]? = some m)
    (r : ModuleRequest) :
    y.step b (.module i r) =
      { y with
        pipeline := (r.run b y.tree m y.pipeline).2
        modules := y.modules.set i (r.run b y.tree m y.pipeline).1 } := by
  simp only [step, hm]

theorem step_module_none {i : Nat} (hm : y.modules[i]? = none) (r : ModuleRequest) :
    y.step b (.module i r) = y := by
  simp only [step, hm]

/-- A module loader stays where it is in the list, and a request to it changes no other one. -/
theorem getElem?_set_modules {i : Nat} {m : ModuleLoader} (hm : y.modules[i]? = some m)
    (m' : ModuleLoader) (j : Nat) :
    (y.modules.set i m')[j]? = if j = i then some m' else y.modules[j]? := by
  by_cases hij : j = i
  · rw [hij, if_pos rfl, List.getElem?_set_self (List.getElem?_eq_some_iff.1 hm).1]
  · rw [if_neg hij, List.getElem?_set_ne (Ne.symm hij)]

/-- Where no registration is asked for, the tags stay. -/
theorem tags_step_of_unregistered (h : o.registration? = none) :
    (y.step b o).pipeline.tags = y.pipeline.tags := by
  cases o with
  | parent e =>
    cases e with
    | files t => rfl
    | request r =>
      refine Request.tags_run b y.tree ?_ y.pipeline
      rintro p tag rfl
      cases h
  | join name => rfl
  | module i r =>
    cases hm : y.modules[i]? with
    | none => rw [step_module_none hm]
    | some m =>
      have hr : ∀ p, r ≠ .addOrigin p := by
        rintro p rfl
        cases h
      rw [step_module hm]
      exact (r.proceeds_run hr b y.tree m y.pipeline).parent.tags_eq

/-- Where no registration is asked for, the registries stay, and a new one is empty. -/
theorem registryOf?_step_of_unregistered (h : o.registration? = none) (party : Party) :
    (y.step b o).registryOf? party = y.registryOf? party ∨
      y.registryOf? party = none ∧ (y.step b o).registryOf? party = some Registry.empty := by
  cases o with
  | parent e =>
    left
    cases e with
    | files t => rfl
    | request r =>
      cases party with
      | module i => rfl
      | pipeline =>
        rcases r.registry_run b y.tree y.pipeline with ⟨p, tag, rfl, -⟩ | he
        · cases h
        · exact congrArg some he
  | join name =>
    cases party with
    | pipeline => exact Or.inl rfl
    | module i =>
      simp only [registryOf?, step]
      rcases Nat.lt_trichotomy i y.modules.length with hi | rfl | hi
      · left
        rw [List.getElem?_append_left hi]
      · right
        simp [ModuleLoader.ofName]
      · left
        rw [List.getElem?_eq_none (by simp; omega), List.getElem?_eq_none (by omega)]
  | module i r =>
    left
    cases hm : y.modules[i]? with
    | none => rw [step_module_none hm]
    | some m =>
      have hr : ∀ p, r ≠ .addOrigin p := by
        rintro p rfl
        cases h
      have hproceeds := r.proceeds_run hr b y.tree m y.pipeline
      rw [step_module hm]
      cases party with
      | pipeline => exact congrArg some hproceeds.parent.registry_eq
      | module j =>
        simp only [registryOf?]
        rw [getElem?_set_modules hm]
        split
        · rename_i hji
          rw [hji, hm, Option.map_some, Option.map_some, hproceeds.registry_eq]
        · rfl

/-- A registration registers at its loader, tags in the shared store and leaves the other
registries alone. -/
theorem step_of_registration (h : o.registration? = some (party, q, tag))
    (hr : y.registryOf? party = some r) :
    let result := r.register y.tree q tag y.pipeline.tags
    (y.step b o).pipeline.tags = result.2.2 ∧
      ∀ other, (y.step b o).registryOf? other =
        if other = party then some result.2.1 else y.registryOf? other := by
  intro result
  rcases o.registration?_eq_some h with ⟨rfl, rfl⟩ | ⟨i, rfl, rfl, rfl⟩
  · obtain rfl : y.pipeline.registry = r := Option.some.inj hr
    refine ⟨rfl, fun other => ?_⟩
    cases other with
    | pipeline => rfl
    | module j => rfl
  · obtain ⟨m, hm, rfl⟩ : ∃ m, y.modules[i]? = some m ∧ m.registry = r := by
      simpa [registryOf?] using hr
    rw [step_module hm]
    refine ⟨rfl, fun other => ?_⟩
    cases other with
    | pipeline => rfl
    | module j =>
      simp only [registryOf?]
      rw [getElem?_set_modules hm]
      by_cases hji : j = i
      · subst hji
        rw [if_pos rfl, if_pos rfl]
        rfl
      · rw [if_neg hji, if_neg (by simpa using hji)]

/-- A registration at a module loader that is not there has no effect. -/
theorem step_of_registration_none (h : o.registration? = some (party, q, tag))
    (hr : y.registryOf? party = none) : y.step b o = y := by
  rcases o.registration?_eq_some h with ⟨rfl, -⟩ | ⟨i, rfl, -, rfl⟩
  · cases hr
  · exact step_module_none (by simpa [registryOf?] using hr) _

theorem consistent_start (b : Blueprint φ β) (t : FileTree) (f : φ) (g : β) :
    (start b t f g).Consistent := by
  intro party r hr
  cases party with
  | pipeline =>
    obtain rfl := Option.some.inj hr
    exact Registry.consistent_empty
  | module i => cases hr

/-- What holds of an empty registry and is kept by registering, the registries of all loaders keep
whatever happens. -/
theorem registries_step {P : Registry → Prop} (hempty : P .empty)
    (hregister : ∀ r q tag tags, P r → P (r.register y.tree q tag tags).2.1)
    (h : ∀ party r, y.registryOf? party = some r → P r) (o : Occurrence) :
    ∀ party r, (y.step b o).registryOf? party = some r → P r := by
  intro party r hr
  cases ho : o.registration? with
  | none =>
    rcases registryOf?_step_of_unregistered (b := b) (y := y) ho party with hsame | ⟨-, hnew⟩
    · rw [hsame] at hr
      exact h party r hr
    · rw [hnew] at hr
      obtain rfl := Option.some.inj hr
      exact hempty
  | some registration =>
    obtain ⟨site, q, tag⟩ := registration
    cases hat : y.registryOf? site with
    | none =>
      rw [step_of_registration_none ho hat] at hr
      exact h party r hr
    | some r' =>
      obtain ⟨-, hregistries⟩ := step_of_registration (b := b) ho hat
      rw [hregistries party] at hr
      split at hr
      · obtain rfl := Option.some.inj hr
        exact hregister r' q tag y.pipeline.tags (h site r' hat)
      · exact h party r hr

theorem Consistent.step (h : y.Consistent) (o : Occurrence) : (y.step b o).Consistent :=
  registries_step Registry.consistent_empty (fun _ q tag tags hr => hr.register y.tree q tag tags)
    h o

/-- The registries of all loaders are consistent after every run. -/
theorem consistent_run (b : Blueprint φ β) (t : FileTree) (f : φ) (g : β)
    (os : List Occurrence) : ((start b t f g).run b os).Consistent :=
  run_induction (P := Consistent) (consistent_start b t f g) (fun _ o h => h.step o) os

/-- What a loader has registered stays registered. -/
theorem registered_step {p : Path} (h : y.registered party p = true) (o : Occurrence) :
    (y.step b o).registered party p = true := by
  obtain ⟨r, hr, hcontains⟩ := (Option.any_eq_true _ _).1 h
  unfold registered
  cases ho : o.registration? with
  | none =>
    rcases registryOf?_step_of_unregistered (b := b) (y := y) ho party with hsame | ⟨hnone, -⟩
    · rw [hsame, hr]
      exact hcontains
    · rw [hr] at hnone
      cases hnone
  | some registration =>
    obtain ⟨site, q, tag⟩ := registration
    cases hat : y.registryOf? site with
    | none =>
      rw [step_of_registration_none ho hat, hr]
      exact hcontains
    | some r' =>
      obtain ⟨-, hregistries⟩ := step_of_registration (b := b) ho hat
      rw [hregistries party]
      split
      · rename_i he
        rw [← he, hr] at hat
        obtain rfl := Option.some.inj hat
        exact Registry.contains_register hcontains y.tree q tag y.pipeline.tags
      · rw [hr]
        exact hcontains

/-- What every request keeps, and what does not depend on the tags, the pipeline keeps whatever
happens. -/
theorem keeps_step {P : Pipeline φ β → Prop}
    (hrequest : ∀ t (r : Request) s, P s → P (r.run b t s).2)
    (htags : ∀ s tags, P s → P { s with tags }) (h : P y.pipeline) (o : Occurrence) :
    P (y.step b o).pipeline := by
  cases o with
  | parent e =>
    cases e with
    | files t => exact h
    | request r => exact hrequest y.tree r y.pipeline h
  | join name => exact h
  | module i r =>
    cases hm : y.modules[i]? with
    | none =>
      rw [step_module_none hm]
      exact h
    | some m =>
      rw [step_module hm]
      by_cases hr : ∃ p, r = .addOrigin p
      · obtain ⟨p, rfl⟩ := hr
        exact htags _ _ h
      · have hproceeds := r.proceeds_run (fun p hp => hr ⟨p, hp⟩) b y.tree m y.pipeline
        exact hproceeds.parent.keeps (hrequest y.tree) h

/-- Some occurrence of a run was of a given kind, which says what it found and what it left. -/
def Happened (b : Blueprint φ β) (y : Ensemble φ β) (os : List Occurrence)
    (kind : Ensemble φ β → Occurrence → Ensemble φ β → Prop) : Prop :=
  ∃ before o later, os = before ++ o :: later ∧
    kind (y.run b before) o ((y.run b before).step b o)

/-- What does not hold at first but at the end became true at some occurrence. -/
theorem exists_turn {Q : Ensemble φ β → Prop} (h0 : ¬Q y) (h : Q (y.run b os)) :
    y.Happened b os fun v _ v' => ¬Q v ∧ Q v' := by
  induction os generalizing y with
  | nil => exact absurd h h0
  | cons o os ih =>
    by_cases hq : Q (y.step b o)
    · exact ⟨[], o, os, rfl, h0, hq⟩
    · obtain ⟨before, o', later, rfl, hturn⟩ := ih hq h
      exact ⟨o :: before, o', later, rfl, hturn⟩

/-- A registered origin stays registered. -/
theorem mem_order_run {og : Origin} (h : og ∈ y.pipeline.registry.order) (os : List Occurrence) :
    og ∈ (y.run b os).pipeline.registry.order :=
  run_induction (P := fun v => og ∈ v.pipeline.registry.order) h
    (fun _ o hv => keeps_step (P := fun s => og ∈ s.registry.order)
      (fun t r _ hs => Request.mem_order_run b t r hs) (fun _ _ hs => hs) hv o) os

/-- What a pipeline has at its start and every request keeps, it has after every run. -/
theorem pipeline_run {P : Pipeline φ β → Prop} {f : φ} {g : β}
    (h0 : P (Pipeline.ofBlueprint b f g))
    (hrequest : ∀ t (r : Request) s, P s → P (r.run b t s).2)
    (htags : ∀ s tags, P s → P { s with tags }) (t : FileTree) (os : List Occurrence) :
    P ((start b t f g).run b os).pipeline :=
  run_induction (P := fun v => P v.pipeline) h0
    (fun _ o hv => keeps_step hrequest htags hv o) os

end Ensemble

end Overlay
