import Overlay.Proofs.Ahead
import Overlay.Proofs.Packing
import Overlay.Startup

/-!
# Prewarming

A host may read the descriptors of all registered origins at its start. It is then ahead of a host
that has not done so, and while the files stay as they are no task tells the two apart: not a
request to the pipeline or to one of its module loaders, not the search for the entry symbol or for
the transform configurations. The exception is a descriptor that is asked for by a path that has
the components of a registered location without being the same path: it may be read differently, if
it is not kept already.
-/

namespace Overlay

variable {φ β α : Type} {b : Blueprint φ β} {t : FileTree} {os : List Origin}

/-- The answer of a module loader. -/
inductive ModuleAnswer where
  /-- Whether an origin was new. -/
  | registered (result : Except LoadError Bool)
  /-- A loaded symbol. -/
  | symbol (result : Except LoadError Symbol)
  /-- The symbol that the module itself has. -/
  | own (result : Option Symbol)
  /-- Whether the module itself has a resource. -/
  | held (result : Bool)
  /-- The location of a resource. -/
  | location (result : Option Location)
  /-- All locations of a resource. -/
  | locations (result : List Location)

/-- What a module loader answers to a request. -/
def ModuleRequest.answer (b : Blueprint φ β) (t : FileTree) :
    ModuleRequest → ModuleLoader → Pipeline φ β → ModuleAnswer
  | addOrigin p, m, parent => .registered (m.addOrigin t p parent).1
  | load name, m, parent => .symbol (m.load b t name parent).1
  | loadLocal name, m, parent => .own (m.loadLocal b t name parent).1
  | hasLocal name, m, _ => .held (m.hasLocal t name).1
  | resource name, m, parent => .location (m.resource b t name parent).1
  | resources name, m, parent => .locations (m.resources b t name parent).1

namespace ModuleLoader

/-- Two operations of a module loader give the same answer, and the module loader is the same, with
one parent ahead of the other. -/
inductive Agrees (t : FileTree) (os : List Origin) :
    α × ModuleLoader × Pipeline φ β → α × ModuleLoader × Pipeline φ β → Prop
  /-- The answer, the module loader and the two parents. -/
  | intro (a : α) (m : ModuleLoader) {parent parent' : Pipeline φ β}
      (ahead : Pipeline.Ahead t os parent parent') : Agrees t os (a, m, parent) (a, m, parent')

variable {m : ModuleLoader} {parent parent' : Pipeline φ β}

theorem agrees_addOrigin (h : Pipeline.Ahead t os parent parent') (p : Path) :
    Agrees t os (m.addOrigin t p parent) (m.addOrigin t p parent') := by
  have htags : parent'.tags = parent.tags := by
    rw [h.same]
    rfl
  unfold addOrigin
  rw [htags]
  generalize m.registry.register t p (some .moduleLocal) parent.tags = r
  obtain ⟨result, registry, tags⟩ := r
  exact .intro _ _ (h.map (f := fun s => { s with tags }) (fun _ _ => rfl) rfl rfl rfl)

theorem agrees_loadLocal (h : Pipeline.Ahead t os parent parent') (hm : m.registry.IsReal)
    (b : Blueprint φ β) (name : String) :
    Agrees t os (m.loadLocal b t name parent) (m.loadLocal b t name parent') := by
  unfold loadLocal
  cases m.symbols.get? name with
  | some x => exact .intro _ _ h
  | none =>
    cases hfound : m.registry.resolve? t (SymbolName.resource name b.config.resourceSuffix)
        m.lookups with
    | mk found lookups =>
      rcases found with e | _ | ⟨o, found⟩
      · exact .intro _ _ h
      · exact .intro _ _ h
      · have hp := h.canonical (hm o (Registry.mem_of_resolveIn hfound))
        have hdescribed := h.descriptorFor hp
        dsimp only
        generalize parent.descriptorFor t o.location = r, parent'.descriptorFor t o.location = r'
          at hdescribed ⊢
        obtain ⟨d, h₁⟩ := hdescribed
        exact .intro _ _ h₁

theorem agrees_choose (h : Pipeline.Ahead t os parent parent') (hm : m.registry.IsReal)
    (b : Blueprint φ β) (tags : TagStore) (name : String) (candidate : Symbol) :
    Agrees t os (Precedence.choose b.config tags (ownLookup b t) name candidate (m, parent))
      (Precedence.choose b.config tags (ownLookup b t) name candidate (m, parent')) := by
  unfold Precedence.choose ownLookup
  dsimp only
  have hreal : Registry.IsReal
      (m.hasLocal t (SymbolName.resource name b.config.resourceSuffix)).2.registry := hm
  generalize m.hasLocal t (SymbolName.resource name b.config.resourceSuffix) = r at hreal
  rcases r with ⟨_ | _, m₁⟩
  · exact .intro _ _ h
  · dsimp only
    split
    · have hloaded := agrees_loadLocal h hreal b name
      dsimp only at hloaded
      generalize m₁.loadLocal b t name parent = r, m₁.loadLocal b t name parent' = r'
        at hloaded ⊢
      obtain ⟨own, m₂, h₁⟩ := hloaded
      cases own <;> exact .intro _ _ h₁
    · exact .intro _ _ h

theorem agrees_loadDotted (h : Pipeline.Ahead t os parent parent') (hm : m.registry.IsReal)
    (b : Blueprint φ β) (name : String) :
    Agrees t os (m.loadDotted b t name parent) (m.loadDotted b t name parent') := by
  have hloaded := h.loadDotted b (SymbolName.dotted name) false
  unfold loadDotted Pipeline.load
  generalize parent.loadDotted b t (SymbolName.dotted name) false = r,
    parent'.loadDotted b t (SymbolName.dotted name) false = r' at hloaded ⊢
  obtain ⟨loaded, h₁⟩ := hloaded
  cases m.symbols.get? name with
  | some x => exact .intro _ _ h
  | none =>
    rename_i s₁ s₁'
    have htags : s₁'.tags = s₁.tags := by
      rw [h₁.same]
      rfl
    cases loaded with
    | error e =>
      dsimp only
      split
      · have hlocal := agrees_loadLocal h₁ hm b name
        generalize m.loadLocal b t name s₁ = r, m.loadLocal b t name s₁' = r' at hlocal ⊢
        obtain ⟨own, m₂, h₂⟩ := hlocal
        cases own <;> exact .intro _ _ h₂
      · exact .intro _ _ h₁
    | ok candidate =>
      dsimp only
      rw [htags]
      have hchosen := agrees_choose h₁ hm b s₁.tags name candidate
      generalize Precedence.choose b.config s₁.tags (ownLookup b t) name candidate (m, s₁) = r,
        Precedence.choose b.config s₁.tags (ownLookup b t) name candidate (m, s₁') = r'
        at hchosen ⊢
      obtain ⟨x, m₂, h₂⟩ := hchosen
      exact .intro _ _ h₂

theorem agrees_resource (h : Pipeline.Ahead t os parent parent') (b : Blueprint φ β)
    (name : String) : Agrees t os (m.resource b t name parent) (m.resource b t name parent') := by
  have hfound := h.resource b name
  unfold resource Precedence.unlessReserved
  split
  · exact .intro _ _ h
  · generalize parent.resource b t name = r, parent'.resource b t name = r' at hfound ⊢
    obtain ⟨found, h₁⟩ := hfound
    cases found <;> exact .intro _ _ h₁

theorem agrees_resources (h : Pipeline.Ahead t os parent parent') (b : Blueprint φ β)
    (name : String) : Agrees t os (m.resources b t name parent) (m.resources b t name parent') := by
  have hfound := h.resources b name
  unfold resources Precedence.unlessReserved
  split
  · exact .intro _ _ h
  · generalize parent.resources b t name = r, parent'.resources b t name = r' at hfound ⊢
    obtain ⟨found, h₁⟩ := hfound
    exact .intro _ _ h₁

end ModuleLoader

/-- A module loader carries out a request alike for both parents. -/
theorem ModuleRequest.run_ahead {m : ModuleLoader} {parent parent' : Pipeline φ β}
    (h : Pipeline.Ahead t os parent parent') (hm : m.registry.IsReal) (b : Blueprint φ β)
    (r : ModuleRequest) :
    ModuleLoader.Agrees t os (r.answer b t m parent, r.run b t m parent)
      (r.answer b t m parent', r.run b t m parent') := by
  have hanswer {α : Type} {r r' : α × ModuleLoader × Pipeline φ β} (f : α → ModuleAnswer)
      (h : ModuleLoader.Agrees t os r r') :
      ModuleLoader.Agrees t os (f r.1, r.2) (f r'.1, r'.2) := by
    obtain ⟨a, m, h⟩ := h
    exact .intro _ _ h
  cases r with
  | addOrigin p => exact hanswer .registered (ModuleLoader.agrees_addOrigin h p)
  | load name =>
    exact hanswer .symbol (ModuleLoader.agrees_loadDotted h hm b (SymbolName.dotted name))
  | loadLocal name => exact hanswer .own (ModuleLoader.agrees_loadLocal h hm b name)
  | hasLocal name => exact .intro _ _ h
  | resource name => exact hanswer .location (ModuleLoader.agrees_resource h b name)
  | resources name => exact hanswer .locations (ModuleLoader.agrees_resources h b name)

/-- A module loader's origins stay real. -/
theorem ModuleRequest.isReal_run {m : ModuleLoader} (hm : m.registry.IsReal)
    (hw : t.HasRealWorkingDirectory) (b : Blueprint φ β) (r : ModuleRequest)
    (parent : Pipeline φ β) : (r.run b t m parent).1.registry.IsReal := by
  by_cases h : ∃ p, r = .addOrigin p
  · obtain ⟨p, rfl⟩ := h
    exact hm.register hw p (some .moduleLocal) parent.tags
  · rw [(r.proceeds_run (fun p hp => h ⟨p, hp⟩) b t m parent).registry_eq]
    exact hm

namespace Startup

variable {s s' : Pipeline φ β}

/-- Prewarming counts the origins that have a descriptor, in whatever order they come, and gets a
pipeline ahead. -/
theorem ahead_prewarmOrigins (h : Pipeline.Ahead t os s s') {order : List Origin}
    (horder : ∀ o ∈ order, o ∈ os) :
    (prewarmOrigins t order s').1 =
        order.countP (fun o => !(s.descriptorFor t o.location).1.isEmpty) ∧
      Pipeline.Ahead t os s (prewarmOrigins t order s').2 := by
  induction order generalizing s' with
  | nil => exact ⟨rfl, h⟩
  | cons o order ih =>
    obtain ⟨hanswer, h₁⟩ := h.warms (horder o List.mem_cons_self)
    obtain ⟨hcount, h₂⟩ := ih h₁ fun o' ho' => horder o' (List.mem_cons_of_mem o ho')
    refine ⟨?_, h₂⟩
    simp only [prewarmOrigins]
    rw [hcount, hanswer, List.countP_cons]
    cases (s.descriptorFor t o.location).1.isEmpty <;> rfl

theorem prewarmOrigins_only (t : FileTree) (o : Origin) (s : Pipeline φ β) :
    (prewarmOrigins t [o] s).2 = (s.descriptorFor t o.location).2 := rfl

/-- Both prewarm alike. -/
theorem agrees_prewarmOrigins (h : Pipeline.Ahead t os s s') {order : List Origin}
    (horder : ∀ o ∈ order, o.location.IsReal) :
    Pipeline.Agrees t os (prewarmOrigins t order s) (prewarmOrigins t order s') := by
  induction order generalizing s s' with
  | nil => exact .intro _ h
  | cons o order ih =>
    have hdescribed := h.descriptorFor (h.canonical (horder o List.mem_cons_self))
    unfold prewarmOrigins
    generalize s.descriptorFor t o.location = r, s'.descriptorFor t o.location = r'
      at hdescribed ⊢
    obtain ⟨d, h₁⟩ := hdescribed
    have hrest := ih h₁ fun o' ho' => horder o' (List.mem_cons_of_mem o ho')
    rename_i s₁ s₁'
    dsimp only
    generalize prewarmOrigins t order s₁ = r, prewarmOrigins t order s₁' = r' at hrest ⊢
    obtain ⟨n, h₂⟩ := hrest
    exact .intro _ h₂

/-- Both add the same configurations. -/
theorem agrees_declare (h : Pipeline.Ahead t os s s') (o : Origin) (names : List String)
    (ds : List Declared) :
    Pipeline.Agrees t os (declare o names ds s) (declare o names ds s') := by
  induction names generalizing ds s s' with
  | nil => exact .intro _ h
  | cons name names ih =>
    unfold declare
    split
    · exact ih (h.note _) ds
    · exact ih h _

/-- Both find the same transform configurations. -/
theorem agrees_transformConfigsIn (h : Pipeline.Ahead t os s s') {order : List Origin}
    (horder : ∀ o ∈ order, o.location.IsReal) (ds : List Declared) :
    Pipeline.Agrees t os (transformConfigsIn t order ds s) (transformConfigsIn t order ds s') := by
  induction order generalizing ds s s' with
  | nil => exact .intro _ h
  | cons o order ih =>
    have hdescribed := h.descriptorFor (h.canonical (horder o List.mem_cons_self))
    have hrest := fun {s s'} (h : Pipeline.Ahead t os s s') =>
      ih h fun o' ho' => horder o' (List.mem_cons_of_mem o ho')
    unfold transformConfigsIn
    generalize s.descriptorFor t o.location = r, s'.descriptorFor t o.location = r'
      at hdescribed ⊢
    obtain ⟨d, h₁⟩ := hdescribed
    rename_i s₁ s₁'
    dsimp only
    cases d.get? transformConfigsKey with
    | none => exact hrest h₁ ds
    | some value =>
      have hdeclared := agrees_declare h₁ o (configNames value) ds
      dsimp only
      generalize declare o (configNames value) ds s₁ = r,
        declare o (configNames value) ds s₁' = r' at hdeclared ⊢
      obtain ⟨ds', h₂⟩ := hdeclared
      exact hrest h₂ ds'

/-- Both find the same entry symbol. -/
theorem agrees_entrySymbol (h : Pipeline.Ahead t os s s') (hw : t.HasRealWorkingDirectory)
    (explicit : Option String) (primary : Path) :
    Pipeline.Agrees t os (entrySymbol t explicit primary s)
      (entrySymbol t explicit primary s') := by
  unfold entrySymbol
  cases explicit with
  | some name => exact .intro _ h
  | none =>
    dsimp only
    cases hreal : t.realPath primary with
    | error e => exact .intro _ h
    | ok location =>
      have hdescribed := h.descriptorFor (h.canonical (Path.isReal_of_realPath hw hreal))
      dsimp only
      generalize s.descriptorFor t location = r, s'.descriptorFor t location = r'
        at hdescribed ⊢
      obtain ⟨d, h₁⟩ := hdescribed
      dsimp only
      cases d.get? entryKey <;> exact .intro _ h₁

end Startup

/-- What may be asked of a host while its files stay as they are. -/
inductive HostTask where
  /-- A request to the pipeline. -/
  | request (r : Request)
  /-- A new module loader comes in. -/
  | join (name : String)
  /-- A request to one of the module loaders. -/
  | module (i : Nat) (r : ModuleRequest)
  /-- Read the descriptors of all origins. -/
  | prewarm
  /-- List the transform configurations. -/
  | transformConfigs
  /-- Find the entry symbol. -/
  | entrySymbol (explicit : Option String) (primary : Path)

/-- The outcome of a task. -/
inductive HostAnswer where
  /-- The answer of the pipeline. -/
  | request (answer : Answer)
  /-- The answer of a module loader. -/
  | module (answer : ModuleAnswer)
  /-- The number of origins that have a descriptor. -/
  | counted (n : Nat)
  /-- The transform configurations. -/
  | declared (configs : List Startup.Declared)
  /-- The entry symbol. -/
  | entry (result : Except StartError String)
  /-- Nothing to tell. -/
  | done

namespace HostTask

/-- Carry out a task. -/
def run (b : Blueprint φ β) (y : Ensemble φ β) : HostTask → HostAnswer × Ensemble φ β
  | request r =>
    let (answer, pipeline) := r.run b y.tree y.pipeline
    (.request answer, { y with pipeline })
  | join name => (.done, y.step b (.join name))
  | module i r =>
    match y.modules[i]? with
    | some m => (.module (r.answer b y.tree m y.pipeline), y.step b (.module i r))
    | none => (.done, y)
  | prewarm =>
    let (n, pipeline) := Startup.prewarm y.tree y.pipeline
    (.counted n, { y with pipeline })
  | transformConfigs =>
    let (configs, pipeline) := Startup.transformConfigs y.tree y.pipeline
    (.declared configs, { y with pipeline })
  | entrySymbol explicit primary =>
    let (result, pipeline) := Startup.entrySymbol y.tree explicit primary y.pipeline
    (.entry result, { y with pipeline })

/-- Carry out tasks in turn, with their answers. -/
def runAll (b : Blueprint φ β) : List HostTask → Ensemble φ β → List HostAnswer × Ensemble φ β
  | [], y => ([], y)
  | k :: ks, y =>
    let (answer, y) := k.run b y
    let (answers, y) := runAll b ks y
    (answer :: answers, y)

end HostTask

namespace Ensemble

/-- One ensemble is ahead of another one if its pipeline is. -/
structure Ahead (os : List Origin) (y y' : Ensemble φ β) : Prop where
  /-- The files and the module loaders are the same. -/
  same : y' = { y with pipeline := y'.pipeline }
  /-- The pipeline is ahead. -/
  pipeline : Pipeline.Ahead y.tree os y.pipeline y'.pipeline
  /-- The working directory is real. -/
  directory : y.tree.HasRealWorkingDirectory
  /-- The module loaders' origins are known by real paths. -/
  real : ∀ m ∈ y.modules, m.registry.IsReal

/-- Two tasks give the same answer, and one ensemble stays ahead of the other. -/
inductive Agrees (os : List Origin) :
    α × Ensemble φ β → α × Ensemble φ β → Prop
  /-- The answer and the two ensembles. -/
  | intro (a : α) {y y' : Ensemble φ β} (ahead : Ahead os y y') : Agrees os (a, y) (a, y')

variable {y y' : Ensemble φ β}

/-- What changes the pipeline only keeps one ensemble ahead. -/
theorem Ahead.agrees (h : Ahead os y y') {γ : Type} (f : α → γ) {r r' : α × Pipeline φ β}
    (hr : Pipeline.Agrees y.tree os r r') :
    Agrees os (f r.1, { y with pipeline := r.2 }) (f r'.1, { y with pipeline := r'.2 }) := by
  obtain ⟨a, hahead⟩ := hr
  exact .intro _ ⟨rfl, hahead, h.directory, h.real⟩

end Ensemble

namespace HostTask

variable {y y' : Ensemble φ β}

theorem runAll_descriptor (b : Blueprint φ β) (p : Path) (y : Ensemble φ β)
    (s : Pipeline φ β) :
    (runAll b [.request (.descriptor p)] { y with pipeline := s }).1 =
      [.request (.descriptor (s.descriptorFor y.tree p).1)] := rfl

/-- A task is carried out alike, if a descriptor that it asks for is named by a canonical path. -/
theorem run_ahead (h : Ensemble.Ahead os y y') {k : HostTask}
    (hk : ∀ p, k = .request (.descriptor p) → Origin.Canonical os p) :
    Ensemble.Agrees os (k.run b y) (k.run b y') := by
  have hregistry := h.pipeline.registry_eq
  obtain ⟨s', rfl⟩ : ∃ s', y' = { y with pipeline := s' } := ⟨_, h.same⟩
  cases k with
  | request r =>
    have hr := Request.run_ahead h.pipeline h.directory b (r := r) fun p hp =>
      hk p (congrArg HostTask.request hp)
    exact h.agrees HostAnswer.request hr
  | join name =>
    refine .intro _ ⟨rfl, h.pipeline, h.directory, fun m hm => ?_⟩
    rcases List.mem_append.1 hm with hm | hm
    · exact h.real m hm
    · rw [List.mem_singleton.1 hm]
      exact fun _ ho => nomatch ho
  | module i r =>
    rw [run, run, show ({ y with pipeline := s' } : Ensemble φ β).modules = y.modules from rfl]
    cases hm : y.modules[i]? with
    | none => exact .intro _ h
    | some m =>
      have hreal := h.real m (List.mem_of_getElem? hm)
      have hr := r.run_ahead h.pipeline hreal b
      have hkept := r.isReal_run hreal h.directory b y.pipeline
      dsimp only
      have hm' : ({ y with pipeline := s' } : Ensemble φ β).modules[i]? = some m := hm
      rw [Ensemble.step_module hm, Ensemble.step_module hm']
      dsimp only at hr ⊢
      generalize r.answer b y.tree m y.pipeline = answer, r.run b y.tree m y.pipeline = ran,
        r.answer b y.tree m s' = answer', r.run b y.tree m s' = ran' at hr hkept ⊢
      obtain ⟨m₁, s₁⟩ := ran
      obtain ⟨m₁', s₁'⟩ := ran'
      obtain ⟨_, _, hahead⟩ := hr
      refine .intro _ ⟨rfl, hahead, h.directory, fun m' hm' => ?_⟩
      rcases List.mem_or_eq_of_mem_set hm' with hm' | rfl
      · exact h.real m' hm'
      · exact hkept
  | prewarm =>
    have hr := Startup.agrees_prewarmOrigins h.pipeline h.pipeline.real
    rw [run, run]
    unfold Startup.prewarm
    rw [hregistry]
    exact h.agrees HostAnswer.counted hr
  | transformConfigs =>
    have hr := Startup.agrees_transformConfigsIn h.pipeline h.pipeline.real []
    rw [run, run]
    unfold Startup.transformConfigs
    rw [hregistry]
    exact h.agrees HostAnswer.declared hr
  | entrySymbol explicit primary =>
    have hr := Startup.agrees_entrySymbol h.pipeline h.directory explicit primary
    exact h.agrees HostAnswer.entry hr

/-- Tasks in turn are carried out alike. -/
theorem runAll_ahead (h : Ensemble.Ahead os y y') {ks : List HostTask}
    (hks : ∀ p, .request (.descriptor p) ∈ ks → Origin.Canonical os p) :
    Ensemble.Agrees os (runAll b ks y) (runAll b ks y') := by
  induction ks generalizing y y' with
  | nil => exact .intro _ h
  | cons k ks ih =>
    have hfirst := run_ahead (b := b) h (k := k) fun p hp => hks p (hp ▸ List.mem_cons_self)
    unfold runAll
    generalize k.run b y = r, k.run b y' = r' at hfirst ⊢
    obtain ⟨answer, h₁⟩ := hfirst
    have hrest := ih h₁ fun p hp => hks p (List.mem_cons_of_mem k hp)
    rename_i y₁ y₁'
    dsimp only
    generalize runAll b ks y₁ = r, runAll b ks y₁' = r' at hrest ⊢
    obtain ⟨answers, h₂⟩ := hrest
    exact .intro _ h₂

end HostTask

namespace Ensemble

/-- While all files have a real working directory, all origins are known by real paths. -/
theorem real_run (b : Blueprint φ β) (hw : t.HasRealWorkingDirectory) (f : φ) (g : β)
    {os : List Occurrence}
    (hos : ∀ t', .parent (.files t') ∈ os → t'.HasRealWorkingDirectory) :
    ((start b t f g).run b os).tree.HasRealWorkingDirectory ∧
      ∀ party r, ((start b t f g).run b os).registryOf? party = some r → r.IsReal := by
  have hempty : Registry.empty.IsReal := fun _ ho => nomatch ho
  apply run_induction_of_mem (P := fun y => y.tree.HasRealWorkingDirectory ∧
    ∀ party r, y.registryOf? party = some r → r.IsReal)
  · refine ⟨hw, fun party r hr => ?_⟩
    cases party with
    | pipeline =>
      obtain rfl := Option.some.inj hr
      exact hempty
    | module i => cases hr
  · rintro y o ho ⟨hdirectory, hreal⟩
    refine ⟨?_, registries_step hempty
      (fun r q tag tags hr => hr.register hdirectory q tag tags) hreal o⟩
    cases o with
    | parent e =>
      cases e with
      | files t' => exact hos t' ho
      | request r => exact hdirectory
    | join name => exact hdirectory
    | module i r =>
      cases hm : y.modules[i]? with
      | none =>
        rw [step_module_none hm]
        exact hdirectory
      | some m =>
        rw [step_module hm]
        exact hdirectory

/-- Prewarming makes no difference to the tasks that come later, and changes nothing but
descriptors and notices. -/
structure Unaffected (b : Blueprint φ β) (order : List Origin) (ks : List HostTask)
    (y : Ensemble φ β) (n : Nat) (s : Pipeline φ β) : Prop where
  /-- Later tasks are answered as without prewarming. -/
  answers : (HostTask.runAll b ks { y with pipeline := s }).1 = (HostTask.runAll b ks y).1
  /-- They leave the same files and module loaders, and the same pipeline but for descriptors and
  notices. -/
  later : ∃ m j, (HostTask.runAll b ks { y with pipeline := s }).2 =
    { (HostTask.runAll b ks y).2 with
      pipeline := (HostTask.runAll b ks y).2.pipeline.twin m j }
  /-- The registered origins stay. -/
  registry : s.registry = y.pipeline.registry
  /-- The defined symbols stay. -/
  defined : s.defined = y.pipeline.defined
  /-- The marked names stay. -/
  provenance : s.provenance = y.pipeline.provenance
  /-- The live views stay. -/
  archives : s.lookups.archives = y.pipeline.lookups.archives
  /-- The origins with a descriptor are counted. -/
  counted : n = y.pipeline.registry.order.countP fun o =>
    !(y.pipeline.descriptorFor y.tree o.location).1.isEmpty

/-- While the files stay as they are, a pipeline that has read the descriptors of its origins, in
any order, is no different from one that has not, as long as who asks for the descriptor of a
registered origin names it by its location. -/
theorem unaffected_of_prewarmed (b : Blueprint φ β) (hw : t.HasRealWorkingDirectory) (f : φ)
    (g : β) {os : List Occurrence}
    (hos : ∀ t', .parent (.files t') ∈ os → t'.HasRealWorkingDirectory) {order : List Origin}
    (horder : order.Perm ((start b t f g).run b os).pipeline.registry.order) {ks : List HostTask}
    (hks : ∀ p, .request (.descriptor p) ∈ ks → Origin.Canonical order p) :
    let y := (start b t f g).run b os
    let warmed := Startup.prewarmOrigins y.tree order y.pipeline
    y.Unaffected b order ks warmed.1 warmed.2 := by
  intro y warmed
  obtain ⟨hdirectory, hreal⟩ := real_run b hw f g hos
  have hconsistent := consistent_run b t f g os .pipeline _ rfl
  have hrefl : Pipeline.Ahead y.tree order y.pipeline y.pipeline := by
    refine .refl (hreal .pipeline _ rfl) fun o ho => ?_
    have hmem := horder.mem_iff.1 ho
    exact ⟨hreal .pipeline _ rfl o hmem, hconsistent.contains_of_mem hmem⟩
  obtain ⟨hcount, hahead⟩ := Startup.ahead_prewarmOrigins hrefl fun o ho => ho
  have hmodules : ∀ m ∈ y.modules, m.registry.IsReal := by
    intro m hm
    obtain ⟨i, hi⟩ := List.mem_iff_getElem?.1 hm
    exact hreal (.module i) m.registry (by rw [registryOf?, hi]; rfl)
  have hwarmed : Ahead order y { y with pipeline := warmed.2 } :=
    ⟨rfl, hahead, hdirectory, hmodules⟩
  have hagrees := HostTask.runAll_ahead (b := b) hwarmed hks
  have hlater :
      (HostTask.runAll b ks { y with pipeline := warmed.2 }).1 = (HostTask.runAll b ks y).1 ∧
        Ahead order (HostTask.runAll b ks y).2
          (HostTask.runAll b ks { y with pipeline := warmed.2 }).2 := by
    generalize HostTask.runAll b ks y = r,
      HostTask.runAll b ks { y with pipeline := warmed.2 } = r' at hagrees
    obtain ⟨answers, h⟩ := hagrees
    exact ⟨rfl, h⟩
  obtain ⟨m, j, htwin⟩ := hlater.2.pipeline.exists_twin
  refine ⟨hlater.1, ⟨m, j, ?_⟩, hahead.registry_eq, hahead.defined_eq, hahead.provenance_eq,
    hahead.archives_eq, hcount.trans ?_⟩
  · rw [hlater.2.same, htwin]
  · exact horder.countP_eq _

end Ensemble

namespace TwoDirectories

/-- Two directories, of which the first one has a descriptor. -/
def tree : FileTree :=
  ⟨[(["d"], .directory), (["d", "META-INF"], .directory),
    (["d", "META-INF", "MANIFEST.MF"], .file "Entry-Symbol: m\n".toUTF8),
    (["e"], .directory)], []⟩

/-- The two origins. -/
def origins : List Origin := [⟨⟨"/d"⟩, .directory⟩, ⟨⟨"/e"⟩, .directory⟩]

/-- A pipeline without settings and over loaders without symbols. -/
def blueprint : Blueprint Memory Unit := ⟨{}, Memory.loader, BootstrapLoader.none⟩

/-- Both are registered. -/
def registrations : List Occurrence :=
  [.parent (.request (.register ⟨"/d"⟩ none)), .parent (.request (.register ⟨"/e"⟩ none))]

/-- What is asked later. -/
def tasks : List HostTask :=
  [.entrySymbol none ⟨"d"⟩, .request (.descriptor ⟨"/e"⟩), .transformConfigs]

/-- The origins are prewarmed, the last one first. -/
theorem unaffected_directories :
    let y := (Ensemble.start blueprint tree Memory.empty ()).run blueprint registrations
    let warmed := Startup.prewarmOrigins y.tree origins.reverse y.pipeline
    y.Unaffected blueprint origins.reverse tasks warmed.1 warmed.2 ∧ warmed.1 = 1 := by
  have hw : tree.HasRealWorkingDirectory := fun _ => rfl
  have hos : ∀ t', Occurrence.parent (.files t') ∈ registrations →
      t'.HasRealWorkingDirectory := by
    intro t' ht'
    simp [registrations] at ht'
  have hregistered : ((Ensemble.start blueprint tree Memory.empty ()).run blueprint
      registrations).pipeline.registry.order = origins := by decide +kernel
  have horder : origins.reverse.Perm ((Ensemble.start blueprint tree Memory.empty ()).run blueprint
      registrations).pipeline.registry.order := by
    rw [hregistered]
    exact List.reverse_perm origins
  have hks : ∀ p, HostTask.request (.descriptor p) ∈ tasks → Origin.Canonical origins.reverse p := by
    intro p hp
    obtain rfl : p = ⟨"/e"⟩ := by simpa [tasks] using hp
    unfold Origin.Canonical
    decide
  exact ⟨Ensemble.unaffected_of_prewarmed blueprint hw Memory.empty () hos horder hks,
    by decide +kernel⟩

end TwoDirectories

namespace Respelling

open OneArchive
open TwoDirectories (blueprint)

/-- The descriptor file of the archive. -/
def files : List PackedFile :=
  [("META-INF/MANIFEST.MF".toUTF8.data.toList, "Name: a\n".toUTF8.data.toList)]

/-- The archive is registered. -/
def ensemble : Ensemble Memory Unit :=
  (Ensemble.start blueprint (treeOf files) Memory.empty ()).run blueprint
    [.parent (.request (.register archive.location none))]

/-- The archive's path with a slash behind it. -/
def respelled : Path := ⟨"/x.tar/"⟩

/-- The archive's descriptor. -/
def described : Descriptor := ⟨⟨[("Name", "a")]⟩, []⟩

theorem fitting_files : Fitting files :=
  fitting_of_fits (List.forall_mem_singleton.2 ⟨by decide, by decide, by decide⟩)
    (by decide +kernel) (by decide +kernel)

theorem fresh_archive :
    (MetadataCache.ofConfig {}).fresh (treeOf files) .empty archive.location = described := by
  rw [MetadataCache.fresh_eq_ofView fitting_files.file fitting_files.ofPath]
  · decide +kernel
  · intro j hj
    rw [show ArchiveTable.empty.get? archive.location = none from rfl] at hj
    cases hj

theorem fresh_respelled :
    (MetadataCache.ofConfig {}).fresh (treeOf files) .empty respelled = Descriptor.empty := by
  have hread : (treeOf files).read respelled = .error .notDirectory := by decide +kernel
  have hd : (treeOf files).isDirectory respelled = false := by decide +kernel
  rw [MetadataCache.fresh, MetadataCache.compute, hd, if_neg Bool.false_ne_true,
    MetadataCache.ofArchive, Archive.scanLeading, Archive.contents, hread]
  rfl

theorem tree_ensemble : ensemble.tree = treeOf files := rfl

theorem pipeline_ensemble : ensemble.pipeline =
    { Pipeline.ofBlueprint blueprint Memory.empty () with registry := .only archive } :=
  Request.run_register_first fitting_files.origin Memory.empty ()

/-- Prewarming tells: by the path with the slash the archive has no descriptor, unless one is kept
for its components. -/
theorem respelled_after_prewarming :
    (HostTask.runAll blueprint [.request (.descriptor respelled)]
        { ensemble with pipeline := (Startup.prewarm ensemble.tree ensemble.pipeline).2 }).1 =
      [.request (.descriptor described)] ∧
    (HostTask.runAll blueprint [.request (.descriptor respelled)] ensemble).1 =
      [.request (.descriptor Descriptor.empty)] ∧ described ≠ Descriptor.empty := by
  have horder : ensemble.pipeline.registry.order = [archive] := by
    rw [pipeline_ensemble]
    rfl
  have hwarmed : (Startup.prewarm ensemble.tree ensemble.pipeline).2 =
      (ensemble.pipeline.descriptorFor ensemble.tree archive.location).2 := by
    rw [Startup.prewarm, horder, Startup.prewarmOrigins_only]
  have hasked (p : Path) : (ensemble.pipeline.descriptorFor ensemble.tree p).1 =
      (MetadataCache.ofConfig {}).fresh (treeOf files) .empty p := by
    rw [Pipeline.descriptorFor_fst, pipeline_ensemble, tree_ensemble]
    exact Option.getD_none
  have hsame : respelled.components = archive.location.components := by decide
  refine ⟨?_, ?_, by decide⟩
  · rw [HostTask.runAll_descriptor, hwarmed, Pipeline.descriptorFor_again _ _ hsame, hasked,
      fresh_archive]
  · exact (HostTask.runAll_descriptor blueprint respelled ensemble ensemble.pipeline).trans
      (by rw [hasked, fresh_respelled])

end Respelling

end Overlay
