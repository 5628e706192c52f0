import Mathlib.Logic.Relation
import Overlay.Proofs.Interleaving
import Overlay.Proofs.Prewarming

/-!
# Tasks that ask for descriptors

A task of a host may come to a point where it cannot go on without the descriptor of an origin: it
was asked for that descriptor, it defines a symbol for the pipeline or for a module loader, it lists
the transform configurations or looks for the entry symbol. An errand is such a task with the step
that it has come to. `Errand.reaches_run` ties the steps to the task that nothing interrupts.
-/

namespace Overlay

variable {φ β : Type}

namespace Stage

/-- The location whose descriptor a stage asks for. -/
def asks? : Stage → Option Path
  | describe f _ => f.codeSource
  | _ => none

/-- Go on with the descriptor that was asked for. -/
def resume (d : Descriptor) : Stage → Stage
  | describe f bytes => noteNamespace f bytes d
  | stage => stage

/-- A stage that asks for a descriptor does nothing else. -/
theorem next_of_asks {stage : Stage} {p : Path} (h : stage.asks? = some p) (b : Blueprint φ β)
    (t : FileTree) (job : Job) (s : Pipeline φ β) :
    stage.next b t job s = (stage.resume (s.descriptorFor t p).1, (s.descriptorFor t p).2) := by
  cases stage with
  | describe f bytes =>
    have hsource : f.codeSource = some p := h
    simp only [next, resume, Pipeline.describe, hsource]
  | _ => cases h

theorem alone_release (b : Blueprint φ β) (t : FileTree) (job : Job) (k : Nat) (o : Outcome)
    (s : Pipeline φ β) : alone b t job k (release o) s = (release o, s) := by
  induction k with
  | zero => rfl
  | succ k ih => exact ih

end Stage

/-- What a module loader does next to load a symbol. -/
inductive ModuleStage where
  /-- Look the name up among the module's symbols. -/
  | check
  /-- Let the parent go on with its load. -/
  | parent (stage : Stage)
  /-- Look whether the module has the resource of a symbol that the parent found. -/
  | compare (candidate : Symbol)
  /-- Look whether that symbol is an early one. -/
  | weigh (candidate : Symbol)
  /-- Look the name up among the module's symbols, in front of its origins. -/
  | recheck (otherwise : Except LoadError Symbol)
  /-- Fetch the definition from the module's origins. -/
  | resolve (otherwise : Except LoadError Symbol)
  /-- Ask for the descriptor of the origin. -/
  | describe (o : Origin) (bytes : ByteArray)
  /-- Keep the symbol. -/
  | keep (o : Origin) (bytes : ByteArray) (descriptor : Descriptor)
  /-- Nothing: the load is over. -/
  | done (result : Except LoadError Symbol)

namespace ModuleStage

/-- The location whose descriptor a stage asks for. -/
def asks? : ModuleStage → Option Path
  | parent stage => stage.asks?
  | describe o _ => some o.location
  | _ => none

/-- Go on with the descriptor that was asked for. -/
def resume (d : Descriptor) : ModuleStage → ModuleStage
  | parent stage => parent (stage.resume d)
  | describe o bytes => keep o bytes d
  | stage => stage

/-- What follows the outcome of the parent's load. -/
def ofParent (name : String) : Outcome → ModuleStage
  | .own x => compare x
  | .handed (.ok x) => compare x
  | .handed (.error e) =>
    if e.isNotFound then recheck (.error (.notFound name)) else done (.error e)
  | .present _ => done (.error (.notFound name))

/-- Carry out a stage that asks for no descriptor. -/
def proceed (b : Blueprint φ β) (t : FileTree) (name : String) :
    ModuleStage → ModuleLoader → Pipeline φ β → ModuleStage × ModuleLoader × Pipeline φ β
  | check, m, s =>
    match m.symbols.get? name with
    | some x => (done (.ok x), m, s)
    | none => (parent .check, m, s)
  | parent (.release o), m, s => (ofParent name o, m, s)
  | parent stage, m, s =>
    let (stage, s) := stage.next b t (.load name false) s
    (parent stage, m, s)
  | compare x, m, s =>
    let (found, m) := m.hasLocal t (SymbolName.resource name b.config.resourceSuffix)
    (if found then weigh x else done (.ok x), m, s)
  | weigh x, m, s => (if Precedence.isEarly s.tags x then recheck (.ok x) else done (.ok x), m, s)
  | recheck otherwise, m, s =>
    match m.symbols.get? name with
    | some x => (done (.ok x), m, s)
    | none => (resolve otherwise, m, s)
  | resolve otherwise, m, s =>
    match m.registry.resolve? t (SymbolName.resource name b.config.resourceSuffix) m.lookups with
    | (.ok (some (o, found)), lookups) => (describe o found.bytes, { m with lookups }, s)
    | (_, lookups) => (done otherwise, { m with lookups }, s)
  | keep o bytes descriptor, m, s =>
    let (x, m) := m.keep ⟨name, bytes, some o.location, descriptor, .module m.name⟩
    (done (.ok x), m, s)
  | stage, m, s => (stage, m, s)

/-- Carry out a stage without an interruption. -/
def next (b : Blueprint φ β) (t : FileTree) (name : String) (stage : ModuleStage)
    (m : ModuleLoader) (s : Pipeline φ β) : ModuleStage × ModuleLoader × Pipeline φ β :=
  match stage.asks? with
  | some p =>
    let (d, s) := s.descriptorFor t p
    (stage.resume d, m, s)
  | none => stage.proceed b t name m s

/-- Stages carried out without an interruption lead from one state to another. -/
def Reaches (b : Blueprint φ β) (t : FileTree) (name : String) :
    ModuleStage × ModuleLoader × Pipeline φ β → ModuleStage × ModuleLoader × Pipeline φ β → Prop :=
  Relation.ReflTransGen fun x y => x.1.next b t name x.2.1 x.2.2 = y

section

variable {b : Blueprint φ β} {t : FileTree} {name : String} {m : ModuleLoader} {s : Pipeline φ β}

/-- The parent's stages are those of a load. -/
theorem next_parent {stage : Stage} (h : ∀ o, stage ≠ .release o) :
    (parent stage).next b t name m s =
      (parent (stage.next b t (.load name false) s).1, m,
        (stage.next b t (.load name false) s).2) := by
  cases hasks : stage.asks? with
  | some p => simp only [next, asks?, hasks, resume, stage.next_of_asks hasks]
  | none =>
    simp only [next, asks?, hasks]
    cases stage with
    | release o => exact absurd rfl (h o)
    | _ => rfl

theorem reaches_parent {k : Nat} {stage : Stage} {o : Outcome} {s' : Pipeline φ β}
    (h : Stage.alone b t (.load name false) k stage s = (.release o, s')) :
    Reaches b t name (parent stage, m, s) (parent (.release o), m, s') := by
  induction k generalizing stage s with
  | zero =>
    cases h
    exact .refl
  | succ k ih =>
    by_cases hr : ∃ o', stage = .release o'
    · obtain ⟨o', rfl⟩ := hr
      rw [Stage.alone_release] at h
      cases h
      exact .refl
    · exact .head (next_parent fun o' ho' => hr ⟨o', ho'⟩) (ih h)

/-- The stages of a load from the module's own origins. -/
theorem reaches_loadLocal (b : Blueprint φ β) (t : FileTree) (name : String)
    (otherwise : Except LoadError Symbol) (m : ModuleLoader) (s : Pipeline φ β) :
    Reaches b t name (recheck otherwise, m, s)
      (done ((m.loadLocal b t name s).1.elim otherwise .ok), (m.loadLocal b t name s).2) := by
  unfold ModuleLoader.loadLocal
  cases hx : m.symbols.get? name with
  | some x => exact .single (by simp [next, asks?, proceed, hx])
  | none =>
    have hrecheck : (recheck otherwise).next b t name m s = (resolve otherwise, m, s) := by
      simp only [next, asks?, proceed, hx]
    refine .head hrecheck ?_
    generalize hfound : m.registry.resolve? t
      (SymbolName.resource name b.config.resourceSuffix) m.lookups = r
    rcases r with ⟨e | _ | ⟨o, found⟩, lookups⟩
    · exact .single (by simp [next, asks?, proceed, hfound])
    · exact .single (by simp [next, asks?, proceed, hfound])
    · have hresolve : (resolve otherwise).next b t name m s =
          (describe o found.bytes, { m with lookups }, s) := by
        simp only [next, asks?, proceed, hfound]
      exact .head hresolve (.head rfl (.single rfl))

/-- The stages of the choice between the parent's symbol and the module's own copy. -/
theorem reaches_choose (b : Blueprint φ β) (t : FileTree) (name : String) (x : Symbol)
    (m : ModuleLoader) (s : Pipeline φ β) :
    Reaches b t name (compare x, m, s)
      (done (.ok (Precedence.choose b.config s.tags (ModuleLoader.ownLookup b t) name x
          (m, s)).1),
        (Precedence.choose b.config s.tags (ModuleLoader.ownLookup b t) name x (m, s)).2) := by
  have hcompare : (compare x).next b t name m s =
      (if (m.hasLocal t (SymbolName.resource name b.config.resourceSuffix)).1 then weigh x
        else done (.ok x),
        (m.hasLocal t (SymbolName.resource name b.config.resourceSuffix)).2, s) := rfl
  refine .head hcompare ?_
  unfold Precedence.choose ModuleLoader.ownLookup
  dsimp only
  generalize m.hasLocal t (SymbolName.resource name b.config.resourceSuffix) = r
  rcases r with ⟨_ | _, m₁⟩
  · exact .refl
  · have hweigh : (weigh x).next b t name m₁ s =
        (if Precedence.isEarly s.tags x then recheck (.ok x) else done (.ok x), m₁, s) := rfl
    refine .head hweigh ?_
    dsimp only
    split
    · have hlocal := reaches_loadLocal b t name (.ok x) m₁ s
      generalize m₁.loadLocal b t name s = r at hlocal ⊢
      rcases r with ⟨_ | own, m₂, s₂⟩ <;> exact hlocal
    · exact .refl

/-- The stages of a load. -/
theorem reaches_loadDotted (b : Blueprint φ β) (t : FileTree) (name : String) (m : ModuleLoader)
    (s : Pipeline φ β) :
    Reaches b t name (check, m, s)
      (done (m.loadDotted b t name s).1, (m.loadDotted b t name s).2) := by
  unfold ModuleLoader.loadDotted
  cases hx : m.symbols.get? name with
  | some x => exact .single (by simp [next, asks?, proceed, hx])
  | none =>
    obtain ⟨o, halone, hanswer⟩ := Stage.finished_alone b t (.load name false) s
    rw [show (Job.load name false).request.run b t s = (.symbol (s.load b t name).1,
      (s.load b t name).2) from rfl] at halone hanswer
    generalize s.load b t name = r at halone hanswer ⊢
    obtain ⟨loaded, s₁⟩ := r
    have hcheck : check.next b t name m s = (parent .check, m, s) := by
      simp only [next, asks?, proceed, hx]
    have hparent : (parent (.release o)).next b t name m s₁ = (ofParent name o, m, s₁) := rfl
    refine .head hcheck ((reaches_parent halone).trans (.head hparent ?_))
    cases loaded with
    | ok x =>
      have ho : ofParent name o = compare x := by
        cases o <;> cases hanswer <;> rfl
      rw [ho]
      exact reaches_choose b t name x m s₁
    | error e =>
      have ho : ofParent name o =
          if e.isNotFound then recheck (.error (.notFound name)) else done (.error e) := by
        cases o <;> cases hanswer
        rfl
      rw [ho]
      dsimp only
      split
      · have hlocal := reaches_loadLocal b t name (.error (.notFound name)) m s₁
        generalize m.loadLocal b t name s₁ = r at hlocal ⊢
        rcases r with ⟨_ | own, m₂, s₂⟩ <;> exact hlocal
      · exact .refl

end

end ModuleStage

/-- A request to a module loader that may come to ask for a descriptor. -/
inductive ModuleJob where
  /-- Load a symbol. -/
  | load (name : String)
  /-- Load a symbol from the module's own origins. -/
  | loadLocal (name : String)

namespace ModuleJob

/-- The name that is looked up. -/
def key : ModuleJob → String
  | load name => SymbolName.dotted name
  | loadLocal name => name

/-- The request as one that nothing interrupts. -/
def request : ModuleJob → ModuleRequest
  | load name => .load name
  | loadLocal name => .loadLocal name

/-- The stage that it begins with. -/
def first : ModuleJob → ModuleStage
  | load _ => .check
  | loadLocal name => .recheck (.error (.notFound name))

/-- The answer that its result gives. -/
def answer (result : Except LoadError Symbol) : ModuleJob → ModuleAnswer
  | load _ => .symbol result
  | loadLocal _ => .own result.toOption

/-- The stages of a request, and its answer. -/
theorem reaches_run (b : Blueprint φ β) (t : FileTree) (job : ModuleJob) (m : ModuleLoader)
    (s : Pipeline φ β) :
    ∃ result, ModuleStage.Reaches b t job.key (job.first, m, s)
        (.done result, job.request.run b t m s) ∧
      job.answer result = job.request.answer b t m s := by
  cases job with
  | load name =>
    exact ⟨_, ModuleStage.reaches_loadDotted b t (SymbolName.dotted name) m s, rfl⟩
  | loadLocal name =>
    refine ⟨_, ModuleStage.reaches_loadLocal b t name (.error (.notFound name)) m s, ?_⟩
    simp only [answer, request, ModuleRequest.answer]
    cases (m.loadLocal b t name s).1 <;> rfl

end ModuleJob

/-- A task that may come to ask for descriptors, with its next step. -/
inductive Errand where
  /-- Ask for the descriptor of an origin. -/
  | describe (location : Path)
  /-- Nothing: the descriptor has been answered. -/
  | described (descriptor : Descriptor)
  /-- Go on with a request to the pipeline under the lock of a name. -/
  | load (job : Job) (stage : Stage)
  /-- Go on with a request to a module loader. -/
  | module (i : Nat) (job : ModuleJob) (stage : ModuleStage)
  /-- List the transform configurations of origins, behind those declared so far. -/
  | list (rest : List Origin) (declared : List Startup.Declared)
  /-- Add the configurations that an origin declares, and go on with the origins behind it. -/
  | declare (o : Origin) (names : List String) (rest : List Origin)
    (declared : List Startup.Declared)
  /-- Find the entry symbol. -/
  | entry (explicit : Option String) (primary : Path)
  /-- Find it in the descriptor of the primary archive. -/
  | entryAt (primary location : Path)
  /-- Nothing: the search for the entry symbol is over. -/
  | entered (result : Except StartError String)

namespace Errand

/-- The location whose descriptor an errand asks for. -/
def asks? : Errand → Option Path
  | describe p => some p
  | load _ stage => stage.asks?
  | module _ _ stage => stage.asks?
  | list (o :: _) _ => some o.location
  | entryAt _ location => some location
  | _ => none

/-- Go on with the descriptor that was asked for. -/
def resume (d : Descriptor) : Errand → Errand
  | describe _ => described d
  | load job stage => load job (stage.resume d)
  | module i job stage => module i job (stage.resume d)
  | list (o :: os) ds =>
    match d.get? Startup.transformConfigsKey with
    | none => list os ds
    | some value => declare o (Startup.configNames value) os ds
  | entryAt primary _ =>
    match d.get? Startup.entryKey with
    | some name => entered (.ok name)
    | none => entered (.error (.noEntry primary))
  | e => e

/-- Carry out a step that asks for no descriptor. -/
def proceed (b : Blueprint φ β) : Errand → Ensemble φ β → Errand × Ensemble φ β
  | load job stage, y =>
    let (stage, pipeline) := stage.next b y.tree job y.pipeline
    (load job stage, { y with pipeline })
  | module i job stage, y =>
    match y.modules[i]? with
    | none => (module i job stage, y)
    | some m =>
      let (stage, m, pipeline) := stage.proceed b y.tree job.key m y.pipeline
      (module i job stage, { y with pipeline, modules := y.modules.set i m })
  | declare o names rest ds, y =>
    let (ds, pipeline) := Startup.declare o names ds y.pipeline
    (list rest ds, { y with pipeline })
  | entry (some name) _, y => (entered (.ok name), y)
  | entry none primary, y =>
    match y.tree.realPath primary with
    | .error e => (entered (.error (.unresolved primary e)), y)
    | .ok location => (entryAt primary location, y)
  | e, y => (e, y)

/-- Carry out a step without an interruption. -/
def next (b : Blueprint φ β) (e : Errand) (y : Ensemble φ β) : Errand × Ensemble φ β :=
  match e.asks? with
  | some p =>
    let (d, pipeline) := y.pipeline.descriptorFor y.tree p
    (e.resume d, { y with pipeline })
  | none => e.proceed b y

/-- The answer of an errand that is over. -/
def answer? : Errand → Option HostAnswer
  | described d => some (.request (.descriptor d))
  | load _ (.release o) => some (.request o.answer)
  | module _ job (.done result) => some (.module (job.answer result))
  | list [] ds => some (.declared ds)
  | entered result => some (.entry result)
  | _ => none

/-- Steps carried out without an interruption lead from one state to another. -/
def Reaches (b : Blueprint φ β) : Errand × Ensemble φ β → Errand × Ensemble φ β → Prop :=
  Relation.ReflTransGen fun x y => x.1.next b x.2 = y

section

variable {b : Blueprint φ β} {y : Ensemble φ β}

/-- The steps of a request under a lock are its stages. -/
theorem reaches_load (job : Job) (k : Nat) (stage : Stage) (s : Pipeline φ β) :
    Reaches b (load job stage, { y with pipeline := s })
      (load job (Stage.alone b y.tree job k stage s).1,
        { y with pipeline := (Stage.alone b y.tree job k stage s).2 }) := by
  induction k generalizing stage s with
  | zero => exact .refl
  | succ k ih =>
    have hnext : (load job stage).next b { y with pipeline := s } =
        (load job (stage.next b y.tree job s).1,
          { y with pipeline := (stage.next b y.tree job s).2 }) := by
      cases hasks : stage.asks? with
      | some p => simp only [next, asks?, hasks, resume, stage.next_of_asks hasks]
      | none => simp only [next, asks?, hasks, proceed]
    exact .head hnext (ih _ _)

/-- A step of a request to a module loader is a stage. -/
theorem next_module {i : Nat} (hi : i < y.modules.length) (job : ModuleJob) (stage : ModuleStage)
    (m : ModuleLoader) (s : Pipeline φ β) :
    let r := stage.next b y.tree job.key m s
    (module i job stage).next b { y with pipeline := s, modules := y.modules.set i m } =
      (module i job r.1, { y with pipeline := r.2.2, modules := y.modules.set i r.2.1 }) := by
  have hm : (y.modules.set i m)[i]? = some m := List.getElem?_set_self hi
  cases hasks : stage.asks? with
  | some p => simp only [next, asks?, hasks, resume, ModuleStage.next]
  | none => simp only [next, asks?, hasks, proceed, ModuleStage.next, hm, List.set_set]

/-- The steps of a request to a module loader are its stages. -/
theorem reaches_module {i : Nat} (hi : i < y.modules.length) (job : ModuleJob)
    {x x' : ModuleStage × ModuleLoader × Pipeline φ β}
    (h : ModuleStage.Reaches b y.tree job.key x x') :
    Reaches b (module i job x.1, { y with pipeline := x.2.2, modules := y.modules.set i x.2.1 })
      (module i job x'.1,
        { y with pipeline := x'.2.2, modules := y.modules.set i x'.2.1 }) := by
  refine h.lift (fun x => (module i job x.1,
    ({ y with pipeline := x.2.2, modules := y.modules.set i x.2.1 } : Ensemble φ β))) ?_
  rintro ⟨stage, m, s⟩ _ rfl
  exact next_module hi job stage m s

/-- The steps that list the transform configurations of some origins. -/
theorem reaches_list (os : List Origin) (ds : List Startup.Declared) (s : Pipeline φ β) :
    Reaches b (list os ds, { y with pipeline := s })
      (list [] (Startup.transformConfigsIn y.tree os ds s).1,
        { y with pipeline := (Startup.transformConfigsIn y.tree os ds s).2 }) := by
  induction os generalizing ds s with
  | nil => exact .refl
  | cons o os ih =>
    unfold Startup.transformConfigsIn
    have hasked : (list (o :: os) ds).next b { y with pipeline := s } =
        ((list (o :: os) ds).resume (s.descriptorFor y.tree o.location).1,
          { y with pipeline := (s.descriptorFor y.tree o.location).2 }) := rfl
    refine .head hasked ?_
    generalize s.descriptorFor y.tree o.location = r
    obtain ⟨d, s₁⟩ := r
    simp only [resume]
    cases d.get? Startup.transformConfigsKey with
    | none => exact ih ds s₁
    | some value => exact .head rfl (ih _ _)

/-- The steps that find the entry symbol. -/
theorem reaches_entry (explicit : Option String) (primary : Path) :
    Reaches b (entry explicit primary, y)
      (entered (Startup.entrySymbol y.tree explicit primary y.pipeline).1,
        { y with pipeline := (Startup.entrySymbol y.tree explicit primary y.pipeline).2 }) := by
  unfold Startup.entrySymbol
  cases explicit with
  | some name => exact .single rfl
  | none =>
    dsimp only
    cases hreal : y.tree.realPath primary with
    | error e => exact .single (by simp [next, asks?, proceed, hreal])
    | ok location =>
      have hfound : (entry none primary).next b y = (entryAt primary location, y) := by
        simp only [next, asks?, proceed, hreal]
      have hasked : (entryAt primary location).next b y =
          ((entryAt primary location).resume (y.pipeline.descriptorFor y.tree location).1,
            { y with pipeline := (y.pipeline.descriptorFor y.tree location).2 }) := rfl
      refine .head hfound (.head hasked ?_)
      dsimp only
      generalize y.pipeline.descriptorFor y.tree location = r
      obtain ⟨d, s₁⟩ := r
      simp only [resume]
      cases d.get? Startup.entryKey <;> exact .refl

end

end Errand

namespace HostTask

/-- The errand that a task is, if it may come to ask for descriptors one after another. -/
def errand? (y : Ensemble φ β) : HostTask → Option Errand
  | request (.descriptor p) => some (.describe p)
  | request (.load name allowed) => some (.load (.load name allowed) .check)
  | request (.isLoaded name) => some (.load (.isLoaded name) .check)
  | module i (.load name) =>
    if i < y.modules.length then some (.module i (.load name) (ModuleJob.load name).first)
    else none
  | module i (.loadLocal name) =>
    if i < y.modules.length then some (.module i (.loadLocal name) (ModuleJob.loadLocal name).first)
    else none
  | transformConfigs => some (.list y.pipeline.registry.order [])
  | entrySymbol explicit primary => some (.entry explicit primary)
  | _ => none

/-- The errands of a task. To read the descriptors of all origins takes one for each origin, and all
are on their way at the same time. -/
def errands (y : Ensemble φ β) : HostTask → List Errand
  | prewarm => y.pipeline.registry.order.map fun o => .describe o.location
  | k => (k.errand? y).toList

/-- An errand that nothing interrupts ends with the answer and the ensemble of the whole task. -/
theorem reaches_run {y : Ensemble φ β} {k : HostTask} {e : Errand} (h : k.errand? y = some e)
    (b : Blueprint φ β) :
    ∃ e', Errand.Reaches b (e, y) (e', (k.run b y).2) ∧ e'.answer? = some (k.run b y).1 := by
  have hlocked (job : Job) : ∃ e', Errand.Reaches b (.load job .check, y)
      (e', { y with pipeline := (job.request.run b y.tree y.pipeline).2 }) ∧
      e'.answer? = some (.request (job.request.run b y.tree y.pipeline).1) := by
    obtain ⟨o, halone, hanswer⟩ := Stage.finished_alone b y.tree job y.pipeline
    have hreaches := Errand.reaches_load (b := b) (y := y) job 8 .check y.pipeline
    rw [halone] at hreaches
    exact ⟨_, hreaches, by rw [← hanswer]; rfl⟩
  have hmodule (i : Nat) (job : ModuleJob) (hi : i < y.modules.length) :
      ∃ e', Errand.Reaches b (.module i job job.first, y)
          (e', ((module i job.request).run b y).2) ∧
        e'.answer? = some ((module i job.request).run b y).1 := by
    have hm : y.modules[i]? = some y.modules[i] := List.getElem?_eq_getElem hi
    obtain ⟨result, hreaches, hanswer⟩ := job.reaches_run b y.tree y.modules[i] y.pipeline
    have hlifted := Errand.reaches_module hi job hreaches
    rw [List.set_getElem_self] at hlifted
    refine ⟨.module i job (.done result), ?_, ?_⟩
    · simp only [run, hm, Ensemble.step_module hm]
      exact hlifted
    · simp only [run, hm, Errand.answer?, hanswer]
  cases k with
  | request r =>
    cases r with
    | descriptor p =>
      obtain rfl := Option.some.inj h
      exact ⟨_, .single rfl, rfl⟩
    | load name allowed =>
      obtain rfl := Option.some.inj h
      exact hlocked (.load name allowed)
    | isLoaded name =>
      obtain rfl := Option.some.inj h
      exact hlocked (.isLoaded name)
    | _ => cases h
  | module i r =>
    cases r with
    | load name =>
      simp only [errand?, Option.ite_none_right_eq_some, Option.some.injEq] at h
      obtain ⟨hi, rfl⟩ := h
      exact hmodule i (.load name) hi
    | loadLocal name =>
      simp only [errand?, Option.ite_none_right_eq_some, Option.some.injEq] at h
      obtain ⟨hi, rfl⟩ := h
      exact hmodule i (.loadLocal name) hi
    | _ => cases h
  | transformConfigs =>
    obtain rfl := Option.some.inj h
    exact ⟨_, Errand.reaches_list y.pipeline.registry.order [] y.pipeline, rfl⟩
  | entrySymbol explicit primary =>
    obtain rfl := Option.some.inj h
    exact ⟨_, Errand.reaches_entry explicit primary, rfl⟩
  | join name | prewarm => cases h

end HostTask

end Overlay
