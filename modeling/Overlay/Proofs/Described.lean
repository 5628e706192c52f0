import Overlay.Proofs.DefineOnce
import Overlay.Proofs.Errands

/-!
# Symbols with kept descriptors

A symbol with an origin is described by what is kept for the origin. Every step of an errand keeps
the symbols of the pipeline and of its module loaders so: the only descriptor that gets into a symbol
is the one that the errand went on with. Steps and tasks that ask for no descriptor change none.
-/

namespace Overlay

variable {φ β : Type}

/-- A value stored only into an absent key is the only one that can be new. -/
theorem Table.of_get?_insertIfAbsent {κ α : Type} [DecidableEq κ] {t : Table κ α} {k k' : κ}
    {v w : α} (h : (t.insertIfAbsent k v).get? k' = some w) : t.get? k' = some w ∨ w = v := by
  rw [get?_insertIfAbsent] at h
  split at h
  · rename_i hk
    cases hv : t.get? k with
    | none =>
      rw [hv] at h
      exact Or.inr (Option.some.inj h).symm
    | some u =>
      rw [hv] at h
      rw [hk, hv]
      exact Or.inl h
  · exact Or.inl h

/-- The descriptors kept by one cache are kept by another. -/
def MetadataCache.KeptBy (m m' : MetadataCache) : Prop :=
  ∀ p d, m.get? p = some d → m'.get? p = some d

theorem MetadataCache.KeptBy.of_eq {m m' : MetadataCache} (h : m' = m) : m.KeptBy m' := by
  rw [h]
  exact fun _ _ hd => hd

/-- A symbol with an origin has the descriptor that is kept for the origin. -/
def Symbol.Described (m : MetadataCache) (x : Symbol) : Prop :=
  ∀ p, x.codeSource = some p → m.get? p = some x.descriptor

/-- All symbols that a module loader defined are described. -/
def ModuleLoader.Described (metadata : MetadataCache) (m : ModuleLoader) : Prop :=
  ∀ n x, m.symbols.get? n = some x → x.Described metadata

/-- All symbols that a pipeline defined are described. -/
def Pipeline.Described (s : Pipeline φ β) : Prop :=
  ∀ n x, s.defined.get? n = some x → x.Described s.metadata

section

variable {m m' : MetadataCache}

theorem Symbol.Described.mono {x : Symbol} (h : x.Described m) (hm : m.KeptBy m') :
    x.Described m' := fun p hp => hm p _ (h p hp)

theorem ModuleLoader.Described.mono {l : ModuleLoader} (h : l.Described m) (hm : m.KeptBy m') :
    l.Described m' := fun n x hx => (h n x hx).mono hm

theorem ModuleLoader.described_ofName (m : MetadataCache) (name : String) :
    (ofName name).Described m := fun n x h => by cases h

/-- A module loader may keep a described symbol. -/
theorem ModuleLoader.Described.keep {l : ModuleLoader} (h : l.Described m) {x : Symbol}
    (hx : x.Described m) : (l.keep x).2.Described m := by
  intro n x' hx'
  rcases Table.of_get?_insertIfAbsent hx' with hx' | rfl
  · exact h n x' hx'
  · exact hx

end

namespace Pipeline

variable {s s' : Pipeline φ β}

/-- What adds no symbols and loses no descriptors keeps the symbols described. -/
theorem Described.mono (h : s.Described) (hd : s'.defined = s.defined)
    (hm : s.metadata.KeptBy s'.metadata) : s'.Described := by
  intro n x hx
  rw [hd] at hx
  exact (h n x hx).mono hm

theorem Described.of_eq (h : s.Described) (hd : s'.defined = s.defined)
    (hm : s'.metadata = s.metadata) : s'.Described :=
  h.mono hd (.of_eq hm)

theorem Described.of_tables (h : s.Described) (ht : s'.tables = s.tables) : s'.Described :=
  h.of_eq (defined_of_tables ht) (metadata_of_tables ht)

/-- A described symbol may be entered. -/
theorem Described.insertSymbol (h : s.Described) {x : Symbol} (hx : x.Described s.metadata) :
    (s.insertSymbol x).2.Described := by
  intro n x' hx'
  rcases Table.of_get?_insertIfAbsent hx' with hx' | rfl
  · exact h n x' hx'
  · exact hx

end Pipeline

namespace Stage

/-- A stage that asks for no descriptor changes none. -/
theorem metadata_next {stage : Stage} (h : stage.asks? = none) (b : Blueprint φ β) (t : FileTree)
    (job : Job) (s : Pipeline φ β) : (stage.next b t job s).2.metadata = s.metadata := by
  cases stage with
  | mark f bytes => exact congrArg Pipeline.Tables.metadata (Pipeline.tables_markFetched job.key f s)
  | describe f bytes =>
    have hsource : f.codeSource = none := h
    simp only [next, Pipeline.describe, hsource]
  | noteNamespace f bytes descriptor =>
    exact congrArg Pipeline.Tables.metadata (Pipeline.tables_noteNamespace job.key (s := s) rfl)
  | insert x => rfl
  | _ => exact Pipeline.metadata_of_tables (tables_next rfl b t job s)

/-- What a stage has in hand is described. -/
def Described (m : MetadataCache) : Stage → Prop
  | noteNamespace f _ d => ∀ p, f.codeSource = some p → m.get? p = some d
  | insert x => x.Described m
  | _ => True

theorem Described.mono {m m' : MetadataCache} {stage : Stage} (h : stage.Described m)
    (hm : m.KeptBy m') : stage.Described m' := by
  cases stage with
  | noteNamespace f bytes d => exact fun p hp => hm p d (h p hp)
  | insert x => exact Symbol.Described.mono h hm
  | _ => trivial

/-- A stage goes on with the descriptor that is kept for the origin. -/
theorem described_resume {m : MetadataCache} {stage : Stage} {p : Path} {d : Descriptor}
    (h : stage.asks? = some p) (hd : m.get? p = some d) : (stage.resume d).Described m := by
  cases stage with
  | describe f bytes =>
    intro q hq
    obtain rfl : p = q := Option.some.inj (h.symm.trans hq)
    exact hd
  | _ => cases h

/-- A stage that asks for no descriptor leaves described what it has in hand and what the pipeline
defined. -/
theorem Described.next {stage : Stage} {s : Pipeline φ β} (h : stage.Described s.metadata)
    (hs : s.Described) (asks : stage.asks? = none) (b : Blueprint φ β) (t : FileTree) (job : Job) :
    (stage.next b t job s).1.Described s.metadata ∧ (stage.next b t job s).2.Described := by
  have hunchanged (hi : stage.insertion? = none) : (stage.next b t job s).2.Described :=
    hs.of_eq (defined_next hi b t job s) (metadata_next asks b t job s)
  cases stage with
  | check =>
    refine ⟨?_, hunchanged rfl⟩
    simp only [Stage.next]
    split
    · trivial
    · trivial
    · split
      · trivial
      · split <;> trivial
  | fetch allowed =>
    refine ⟨?_, hunchanged rfl⟩
    simp only [Stage.next]
    split <;> trivial
  | transform f =>
    refine ⟨?_, hunchanged rfl⟩
    simp only [Stage.next]
    split <;> trivial
  | describe f bytes =>
    refine ⟨fun p hp => ?_, hunchanged rfl⟩
    have hsource : f.codeSource = none := asks
    rw [hsource] at hp
    cases hp
  | noteNamespace f bytes d => exact ⟨fun p hp => h p hp, hunchanged rfl⟩
  | insert x => exact ⟨trivial, hs.insertSymbol h⟩
  | support | bootstrap | consult | mark f bytes | delegate | release o =>
    exact ⟨trivial, hunchanged rfl⟩

end Stage

namespace ModuleStage

/-- What a stage has in hand is described. -/
def Described (m : MetadataCache) : ModuleStage → Prop
  | parent stage => stage.Described m
  | keep o _ d => m.get? o.location = some d
  | _ => True

theorem Described.mono {m m' : MetadataCache} {stage : ModuleStage} (h : stage.Described m)
    (hm : m.KeptBy m') : stage.Described m' := by
  cases stage with
  | parent stage => exact Stage.Described.mono h hm
  | keep o bytes d => exact hm _ d h
  | _ => trivial

theorem described_resume {m : MetadataCache} {stage : ModuleStage} {p : Path} {d : Descriptor}
    (h : stage.asks? = some p) (hd : m.get? p = some d) : (stage.resume d).Described m := by
  cases stage with
  | parent stage => exact Stage.described_resume h hd
  | describe o bytes =>
    obtain rfl : o.location = p := Option.some.inj h
    exact hd
  | _ => cases h

/-- What a step leaves that asks for no descriptor: the descriptors as they are, and described what
the step has in hand, what the module loader defined and what the pipeline defined. -/
structure Leaves (m : MetadataCache) (r : ModuleStage × ModuleLoader × Pipeline φ β) : Prop where
  /-- The descriptors are the same. -/
  metadata : r.2.2.metadata = m
  /-- What it has in hand is described. -/
  stage : r.1.Described m
  /-- The symbols of the module loader are described. -/
  own : r.2.1.Described m
  /-- The symbols of the pipeline are described. -/
  parent : r.2.2.Described

theorem Described.proceed {stage : ModuleStage} {m : ModuleLoader} {s : Pipeline φ β}
    (h : stage.Described s.metadata) (hm : m.Described s.metadata) (hs : s.Described)
    (asks : stage.asks? = none) (b : Blueprint φ β) (t : FileTree) (name : String) :
    Leaves s.metadata (stage.proceed b t name m s) := by
  cases stage with
  | check =>
    simp only [ModuleStage.proceed]
    split <;> exact ⟨rfl, trivial, hm, hs⟩
  | parent stage =>
    by_cases hr : ∃ o, stage = .release o
    · obtain ⟨o, rfl⟩ := hr
      refine ⟨rfl, ?_, hm, hs⟩
      simp only [ModuleStage.proceed]
      unfold ofParent
      split
      · trivial
      · trivial
      · split <;> trivial
      · trivial
    · have hnext := Stage.Described.next h hs asks b t (.load name false)
      have hmetadata := Stage.metadata_next asks b t (.load name false) s
      have hproceed : (parent stage).proceed b t name m s =
          (parent (stage.next b t (.load name false) s).1, m,
            (stage.next b t (.load name false) s).2) := by
        cases stage with
        | release o => exact absurd ⟨o, rfl⟩ hr
        | _ => rfl
      rw [hproceed]
      exact ⟨hmetadata, hnext.1, hm, hnext.2⟩
  | compare x =>
    refine ⟨rfl, ?_, hm, hs⟩
    simp only [ModuleStage.proceed]
    split <;> trivial
  | weigh x =>
    refine ⟨rfl, ?_, hm, hs⟩
    simp only [ModuleStage.proceed]
    split <;> trivial
  | recheck otherwise =>
    simp only [ModuleStage.proceed]
    split <;> exact ⟨rfl, trivial, hm, hs⟩
  | resolve otherwise =>
    simp only [ModuleStage.proceed]
    split <;> exact ⟨rfl, trivial, hm, hs⟩
  | keep o bytes d =>
    refine ⟨rfl, trivial, hm.keep fun p hp => ?_, hs⟩
    obtain rfl : o.location = p := Option.some.inj hp
    exact h
  | describe o bytes => cases asks
  | done result => exact ⟨rfl, trivial, hm, hs⟩

end ModuleStage

namespace Ensemble

/-- A symbol is defined by the pipeline or by one of its module loaders. -/
def Defines (y : Ensemble φ β) (x : Symbol) : Prop :=
  (∃ n, y.pipeline.defined.get? n = some x) ∨ ∃ m ∈ y.modules, ∃ n, m.symbols.get? n = some x

/-- All symbols of the pipeline and of its module loaders are described. -/
structure Described (y : Ensemble φ β) : Prop where
  /-- Those of the pipeline are. -/
  pipeline : y.pipeline.Described
  /-- Those of the module loaders are. -/
  modules : ∀ m ∈ y.modules, m.Described y.pipeline.metadata

variable {y : Ensemble φ β} {s : Pipeline φ β}

theorem Described.of_defines (h : y.Described) {x : Symbol} (hx : y.Defines x) :
    x.Described y.pipeline.metadata := by
  rcases hx with ⟨n, hx⟩ | ⟨m, hm, n, hx⟩
  · exact h.pipeline n x hx
  · exact h.modules m hm n x hx

/-- The pipeline may change as long as its symbols stay described and no descriptor is lost. -/
theorem Described.withPipeline (h : y.Described) (hs : s.Described)
    (hm : y.pipeline.metadata.KeptBy s.metadata) : Described { y with pipeline := s } :=
  ⟨hs, fun m hmem => (h.modules m hmem).mono hm⟩

/-- A module loader may change as long as its symbols stay described. -/
theorem Described.withModule (h : y.Described) {i : Nat} {m : ModuleLoader}
    (hm : m.Described y.pipeline.metadata) (hs : s.Described)
    (hsame : s.metadata = y.pipeline.metadata) :
    Described { y with pipeline := s, modules := y.modules.set i m } := by
  refine ⟨hs, fun m' hm' => ?_⟩
  change m'.Described s.metadata
  rw [hsame]
  rcases List.mem_or_eq_of_mem_set hm' with hm' | rfl
  · exact h.modules m' hm'
  · exact hm

end Ensemble

namespace Startup

/-- Declaring configurations leaves at most notices. -/
theorem tables_declare (o : Origin) (names : List String) (ds : List Declared)
    (s : Pipeline φ β) : (declare o names ds s).2.tables = s.tables := by
  induction names generalizing ds s with
  | nil => rfl
  | cons name names ih =>
    unfold declare
    split
    · exact ih ds _
    · exact ih _ s

end Startup

namespace Errand

/-- What an errand has in hand is described. -/
def Described (m : MetadataCache) : Errand → Prop
  | load _ stage => stage.Described m
  | module _ _ stage => stage.Described m
  | _ => True

theorem Described.mono {m m' : MetadataCache} {e : Errand} (h : e.Described m)
    (hm : m.KeptBy m') : e.Described m' := by
  cases e with
  | load job stage => exact Stage.Described.mono h hm
  | module i job stage => exact ModuleStage.Described.mono h hm
  | _ => trivial

/-- An errand goes on with the descriptor that is kept for the origin. -/
theorem described_resume {m : MetadataCache} {e : Errand} {p : Path} {d : Descriptor}
    (h : e.asks? = some p) (hd : m.get? p = some d) : (e.resume d).Described m := by
  cases e with
  | load job stage => exact Stage.described_resume h hd
  | module i job stage => exact ModuleStage.described_resume h hd
  | list os ds =>
    cases os with
    | nil => cases h
    | cons o os =>
      simp only [resume]
      split <;> trivial
  | entryAt primary location =>
    simp only [resume]
    split <;> trivial
  | _ => trivial

/-- What a step leaves that asks for no descriptor: the descriptors as they are, and described what
the errand has in hand and what the pipeline and its module loaders defined. -/
structure Leaves (m : MetadataCache) (r : Errand × Ensemble φ β) : Prop where
  /-- The descriptors are the same. -/
  metadata : r.2.pipeline.metadata = m
  /-- What it has in hand is described. -/
  errand : r.1.Described m
  /-- The symbols are described. -/
  symbols : r.2.Described

theorem Described.proceed {e : Errand} {y : Ensemble φ β} (h : e.Described y.pipeline.metadata)
    (hy : y.Described) (asks : e.asks? = none) (b : Blueprint φ β) :
    Leaves y.pipeline.metadata (e.proceed b y) := by
  cases e with
  | load job stage =>
    have hnext := Stage.Described.next h hy.pipeline asks b y.tree job
    have hmetadata := Stage.metadata_next asks b y.tree job y.pipeline
    exact ⟨hmetadata, hnext.1, hy.withPipeline hnext.2 (.of_eq hmetadata)⟩
  | module i job stage =>
    simp only [Errand.proceed]
    cases hm : y.modules[i]? with
    | none => exact ⟨rfl, h, hy⟩
    | some m =>
      have hleaves := ModuleStage.Described.proceed h (hy.modules m (List.mem_of_getElem? hm))
        hy.pipeline asks b y.tree job.key
      exact ⟨hleaves.metadata, hleaves.stage,
        hy.withModule hleaves.own hleaves.parent hleaves.metadata⟩
  | declare o names rest ds =>
    have ht := Startup.tables_declare o names ds y.pipeline
    have hmetadata := Pipeline.metadata_of_tables ht
    exact ⟨hmetadata, trivial, hy.withPipeline (hy.pipeline.of_tables ht) (.of_eq hmetadata)⟩
  | entry explicit primary =>
    cases explicit with
    | some name => exact ⟨rfl, trivial, hy⟩
    | none =>
      simp only [Errand.proceed]
      split <;> exact ⟨rfl, trivial, hy⟩
  | _ => exact ⟨rfl, h, hy⟩

end Errand

/-- A request that neither loads nor asks for a descriptor changes no descriptors. -/
theorem Request.metadata_run {r : Request} (hload : ∀ name allowed, r ≠ .load name allowed)
    (hdescriptor : ∀ p, r ≠ .descriptor p) (b : Blueprint φ β) (t : FileTree) (s : Pipeline φ β) :
    (r.run b t s).2.metadata = s.metadata := by
  by_cases hasks : r.asks = true
  · exact Pipeline.metadata_of_tables (tables_run_of_asks hasks b t s)
  cases r with
  | load name allowed => exact absurd rfl (hload name allowed)
  | descriptor p => exact absurd rfl (hdescriptor p)
  | register p tag | mark name => rfl
  | install tr =>
    simp only [run, Pipeline.install]
    split <;> rfl
  | _ => exact absurd rfl hasks

/-- A request that loads nothing leaves the module loader's symbols, and of its parent the
descriptors and the definitions. -/
theorem ModuleRequest.unchanged_run {r : ModuleRequest} (hload : ∀ name, r ≠ .load name)
    (hlocal : ∀ name, r ≠ .loadLocal name) (b : Blueprint φ β) (t : FileTree) (m : ModuleLoader)
    (s : Pipeline φ β) :
    (r.run b t m s).1.symbols = m.symbols ∧ (r.run b t m s).2.metadata = s.metadata ∧
      (r.run b t m s).2.defined = s.defined := by
  cases r with
  | load name => exact absurd rfl (hload name)
  | loadLocal name => exact absurd rfl (hlocal name)
  | addOrigin p | hasLocal name => exact ⟨rfl, rfl, rfl⟩
  | resource name =>
    have ht := Pipeline.tables_resource b t name s
    simp only [run, ModuleLoader.resource, Precedence.unlessReserved]
    split
    · exact ⟨rfl, rfl, rfl⟩
    · generalize s.resource b t name = found at ht
      rcases found with ⟨_ | l, s₁⟩ <;>
        exact ⟨rfl, Pipeline.metadata_of_tables ht, Pipeline.defined_of_tables ht⟩
  | resources name =>
    have ht := Pipeline.tables_resources b t name s
    simp only [run, ModuleLoader.resources, Precedence.unlessReserved]
    split
    · exact ⟨rfl, rfl, rfl⟩
    · exact ⟨rfl, Pipeline.metadata_of_tables ht, Pipeline.defined_of_tables ht⟩

namespace HostTask

variable {y : Ensemble φ β} {k : HostTask}

/-- An errand that comes in has nothing in hand. -/
theorem described_errands {e : Errand} (h : e ∈ k.errands y) (m : MetadataCache) :
    e.Described m := by
  have hsingle (h : k.errand? y = some e) : e.Described m := by
    unfold errand? at h
    split at h
    · obtain rfl := Option.some.inj h
      trivial
    · obtain rfl := Option.some.inj h
      trivial
    · obtain rfl := Option.some.inj h
      trivial
    · split at h <;> cases h
      trivial
    · split at h <;> cases h
      trivial
    · obtain rfl := Option.some.inj h
      trivial
    · obtain rfl := Option.some.inj h
      trivial
    · cases h
  cases k with
  | prewarm =>
    obtain ⟨o, -, rfl⟩ := List.mem_map.1 h
    trivial
  | _ => exact hsingle (Option.mem_toList.1 h)

/-- A task without errands changes no descriptors and leaves all symbols described. -/
theorem described_run (h : k.errands y = []) (hy : y.Described) (b : Blueprint φ β) :
    (k.run b y).2.pipeline.metadata = y.pipeline.metadata ∧ (k.run b y).2.Described := by
  cases k with
  | request r =>
    have hr : r.isLocked = false ∧ ∀ p, r ≠ .descriptor p := by
      cases r with
      | load name allowed | isLoaded name | descriptor p => cases h
      | _ => exact ⟨rfl, by simp⟩
    have hmetadata := r.metadata_run (by rintro name allowed rfl; cases hr.1) hr.2 b y.tree
      y.pipeline
    have hdefined := r.defined_run hr.1 b y.tree y.pipeline
    exact ⟨hmetadata,
      hy.withPipeline (hy.pipeline.of_eq hdefined hmetadata) (.of_eq hmetadata)⟩
  | join name =>
    refine ⟨rfl, hy.pipeline, fun m hm => ?_⟩
    rcases List.mem_append.1 hm with hm | hm
    · exact hy.modules m hm
    · rw [List.mem_singleton.1 hm]
      exact ModuleLoader.described_ofName _ name
  | module i r =>
    simp only [run]
    cases hm : y.modules[i]? with
    | none => exact ⟨rfl, hy⟩
    | some m =>
      have hi : i < y.modules.length := (List.getElem?_eq_some_iff.1 hm).1
      have hr : (∀ name, r ≠ .load name) ∧ ∀ name, r ≠ .loadLocal name := by
        constructor
        all_goals
          rintro name rfl
          simp [errands, errand?, hi] at h
      obtain ⟨hsymbols, hmetadata, hdefined⟩ := r.unchanged_run hr.1 hr.2 b y.tree m y.pipeline
      rw [Ensemble.step_module hm]
      refine ⟨hmetadata, hy.withModule ?_ (hy.pipeline.of_eq hdefined hmetadata) hmetadata⟩
      intro n x hx
      rw [hsymbols] at hx
      exact hy.modules m (List.mem_of_getElem? hm) n x hx
  | prewarm =>
    have horder : y.pipeline.registry.order = [] := by simpa [errands] using h
    simp only [run, Startup.prewarm, horder]
    exact ⟨rfl, hy⟩
  | transformConfigs | entrySymbol explicit primary => cases h

end HostTask

end Overlay
