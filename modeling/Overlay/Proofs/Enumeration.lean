import Overlay.Proofs.Concord
import Overlay.Proofs.Delegation

/-!
# One look-up and all

A pipeline gives one location of a resource, or all of them, and a module loader over it does so for
its parent's origins and its own. Through registered origins, and through a fallback loader that
sees one copy, the listing starts with the one location. A search path, however, lists nothing if
any copy along it cannot be read, while it finds the first copy if that one can be read. So over a
search path the two agree except where a readable copy comes before an unreadable one.
-/

namespace Overlay

/-- A listing starts with what a single look-up finds, and is empty exactly if it finds nothing. -/
def Leads (one : Option Location) (all : List Location) : Prop :=
  one = all.head? ∧ (one = none ↔ all = [])

theorem leads_iff {one : Option Location} {all : List Location} :
    Leads one all ↔ one = all.head? := by
  refine ⟨And.left, fun h => ⟨h, ?_⟩⟩
  rw [h, List.head?_eq_none_iff]

namespace Registry

variable {t : FileTree} {a : ArchiveTable} {resource : String} {os : List Origin}
  {s : LookupState}

/-- The first place of a resource comes first among all its places. -/
theorem findIn_eq_head?_findAllIn :
    (findIn t resource os s).1 = (findAllIn t resource os s).1.head? := by
  induction os generalizing s with
  | nil => rfl
  | cons o os ih =>
    rw [findAllIn, findIn]
    rcases o.holds t resource s with ⟨_ | _, s₁⟩
    · exact ih
    · rfl

/-- Along some origins, the first copy of a resource can be read and a later one cannot. -/
def Marred (t : FileTree) (a : ArchiveTable) (resource : String) (os : List Origin) : Prop :=
  ∃ before o later found, os = before ++ o :: later ∧
    (∀ o' ∈ before, o'.offer t a resource = .ok none) ∧
    o.offer t a resource = .ok (some found) ∧
    ∃ o' ∈ later, ∃ e, o'.offer t a resource = .error e

/-- Reading all copies fails exactly if one of them cannot be read. -/
theorem filterMapM_offer_eq_error_iff :
    (∃ e, os.filterMapM (·.offer t a resource) = .error e) ↔
      ∃ o ∈ os, ∃ e, o.offer t a resource = .error e := by
  induction os with
  | nil => simp [pure, Except.pure]
  | cons o os ih =>
    rw [List.filterMapM_cons, List.exists_mem_cons_iff, ← ih]
    cases o.offer t a resource with
    | error e => simp [bind, Except.bind]
    | ok found =>
      cases found with
      | none => simp [bind, Except.bind]
      | some found =>
        cases os.filterMapM (·.offer t a resource) <;>
          simp [bind, Except.bind, pure, Except.pure]

theorem marred_cons_iff {o : Origin} :
    Marred t a resource (o :: os) ↔
      (∃ found, o.offer t a resource = .ok (some found)) ∧
          (∃ o' ∈ os, ∃ e, o'.offer t a resource = .error e) ∨
        o.offer t a resource = .ok none ∧ Marred t a resource os := by
  constructor
  · rintro ⟨before, o₁, later, found, he, habsent, hcopy, hmarred⟩
    rcases before with - | ⟨o₀, before⟩
    · obtain ⟨rfl, rfl⟩ := List.cons.inj he
      exact Or.inl ⟨⟨found, hcopy⟩, hmarred⟩
    · obtain ⟨rfl, rfl⟩ := List.cons.inj he
      exact Or.inr ⟨habsent o List.mem_cons_self, before, o₁, later, found, rfl,
        fun o' ho' => habsent o' (List.mem_cons_of_mem o ho'), hcopy, hmarred⟩
  · rintro (⟨⟨found, hcopy⟩, hmarred⟩ | ⟨hfirst, before, o₁, later, found, rfl, habsent, hrest⟩)
    · exact ⟨[], o, os, found, rfl, nofun, hcopy, hmarred⟩
    · exact ⟨o :: before, o₁, later, found, rfl, List.forall_mem_cons.2 ⟨hfirst, habsent⟩, hrest⟩

/-- The first copy is read although not all are exactly if the first copy can be read and a later
one cannot. -/
theorem marred_iff :
    Marred t a resource os ↔
      (∃ found, os.findSomeM? (·.offer t a resource) = .ok (some found)) ∧
        ∃ e, os.filterMapM (·.offer t a resource) = .error e := by
  induction os with
  | nil =>
    constructor
    · rintro ⟨_ | _, _, _, _, he, -⟩ <;> cases he
    · rintro ⟨⟨found, hfound⟩, -⟩
      cases hfound
  | cons o os ih =>
    rw [marred_cons_iff, filterMapM_offer_eq_error_iff, List.exists_mem_cons_iff, ih,
      filterMapM_offer_eq_error_iff, List.findSomeM?_cons]
    cases o.offer t a resource with
    | error e => simp [bind, Except.bind]
    | ok found => cases found <;> simp [bind, Except.bind, pure, Except.pure]

end Registry

namespace SearchPath

theorem resolve_eq (t : FileTree) (name : String) (f : SearchPath) :
    (f.resolve t name).1 =
      (f.registry.resolve? t name f.lookups).1.toOption.join.map (·.2) := by
  unfold resolve
  generalize f.registry.resolve? t name f.lookups = r
  rcases r with ⟨e | found, lookups⟩ <;> rfl

theorem resolveAll_eq (t : FileTree) (name : String) (f : SearchPath) :
    (f.resolveAll t name).1 =
      ((f.registry.resolveAll t name f.lookups).1.toOption.getD []).map (·.2) := by
  unfold resolveAll
  generalize f.registry.resolveAll t name f.lookups = r
  rcases r with ⟨e | found, lookups⟩ <;> rfl

variable {t : FileTree} {resource : String} {f f' : SearchPath}

/-- The copies of a resource along a search path are marred. -/
def Marred (t : FileTree) (resource : String) (f : SearchPath) : Prop :=
  Registry.Marred t f.lookups.archives resource f.registry.order

theorem marred_iff (h : f.registry.Consistent) :
    f.Marred t resource ↔
      (∃ found, (f.registry.resolve? t resource f.lookups).1 = .ok (some found)) ∧
        ∃ e, (f.registry.resolveAll t resource f.lookups).1 = .error e := by
  unfold Marred Registry.resolve? Registry.resolveAll
  rw [Registry.marred_iff, h.resolveIn_fst (fun _ ho => ho) (.refl t f.registry.order _),
    h.resolveAllIn_fst (fun _ ho => ho) (.refl t f.registry.order _)]

/-- A search path finds the first copy that it lists, unless its copies are marred. -/
theorem resolve_eq_head? (h : f.registry.Consistent) (unmarred : ¬f.Marred t resource) :
    (f.resolve t resource).1 = (f.resolveAll t resource).1.head? := by
  have hconcord := Registry.concord_origins t f.lookups.archives resource f.registry.order
  rw [← h.resolveIn_fst (fun _ ho => ho) (.refl t f.registry.order _),
    ← h.resolveAllIn_fst (fun _ ho => ho) (.refl t f.registry.order _)] at hconcord
  rw [marred_iff h] at unmarred
  rw [resolve_eq, resolveAll_eq, List.head?_map]
  unfold Registry.resolve? Registry.resolveAll at unmarred ⊢
  generalize (Registry.resolveIn t resource f.registry.order f.lookups).1 = one at *
  generalize (Registry.resolveAllIn t resource f.registry.order f.lookups).1 = all at *
  cases all with
  | ok l =>
    obtain ⟨-, -, rfl, -⟩ := hconcord.listed l rfl
    rfl
  | error e =>
    rcases one with e' | _ | found
    · rfl
    · rfl
    · exact absurd ⟨⟨found, rfl⟩, e, rfl⟩ unmarred

/-- A search path with marred copies finds one, and lists none. -/
theorem resolve_of_marred (h : f.registry.Consistent) (marred : f.Marred t resource) :
    (∃ found, (f.resolve t resource).1 = some found) ∧ (f.resolveAll t resource).1 = [] := by
  obtain ⟨⟨found, hfound⟩, e, he⟩ := (marred_iff h).1 marred
  rw [resolve_eq, resolveAll_eq, hfound, he]
  exact ⟨⟨found.2, rfl⟩, rfl⟩

end SearchPath

namespace Pipeline

variable {φ β : Type} {b : Blueprint φ β} {t : FileTree} {name : String} {s : Pipeline φ β}

theorem resource_fst (b : Blueprint φ β) (t : FileTree) (name : String) (s : Pipeline φ β) :
    (s.resource b t name).1 = (s.registry.find? t name s.lookups).1.or
      ((b.fallback.resolve t name s.fallback).1.map (·.location)) := by
  unfold resource
  generalize s.registry.find? t name s.lookups = r
  rcases r with ⟨_ | l, lookups⟩ <;> rfl

theorem resources_fst (b : Blueprint φ β) (t : FileTree) (name : String) (s : Pipeline φ β) :
    (s.resources b t name).1 =
      if (s.registry.findAll t name s.lookups).1 = [] then
        (b.fallback.resolveAll t name s.fallback).1.map (·.location)
      else (s.registry.findAll t name s.lookups).1 := by
  unfold resources
  generalize s.registry.findAll t name s.lookups = r
  rcases r with ⟨_ | ⟨l, ls⟩, lookups⟩ <;> rfl

/-- A pipeline lists first what it finds, if a registered origin has it or the fallback loader lists
first what it finds. -/
theorem leads_resources
    (h : (s.registry.find? t name s.lookups).1 = none →
      (b.fallback.resolve t name s.fallback).1 =
        (b.fallback.resolveAll t name s.fallback).1.head?) :
    Leads (s.resource b t name).1 (s.resources b t name).1 := by
  rw [leads_iff, resource_fst, resources_fst]
  cases hfound : (s.registry.find? t name s.lookups).1 with
  | none =>
    rw [if_pos (Registry.findAll_eq_nil_iff.2 hfound), Option.none_or, h hfound, List.head?_map]
  | some l =>
    rw [if_neg fun hnil => ?_, Option.some_or, ← hfound]
    · exact Registry.findIn_eq_head?_findAllIn
    · rw [Registry.findAll_eq_nil_iff.1 hnil] at hfound
      cases hfound

end Pipeline

namespace ModuleLoader

variable {φ β : Type} {b : Blueprint φ β} {t : FileTree} {name : String} {m : ModuleLoader}
  {parent : Pipeline φ β}

theorem resource_of_reserved (h : b.config.isReserved name = true) :
    (m.resource b t name parent).1 = none := by
  rw [resource, Precedence.unlessReserved, if_pos h]

theorem resources_of_reserved (h : b.config.isReserved name = true) :
    (m.resources b t name parent).1 = [] := by
  rw [resources, Precedence.unlessReserved, if_pos h]

theorem resource_fst (h : b.config.isReserved name = false) :
    (m.resource b t name parent).1 =
      (parent.resource b t name).1.or (m.registry.find? t name m.lookups).1 := by
  rw [resource, Precedence.unlessReserved, if_neg (by simp [h])]
  generalize parent.resource b t name = r
  rcases r with ⟨_ | l, s⟩ <;> rfl

theorem resources_fst (h : b.config.isReserved name = false) :
    (m.resources b t name parent).1 =
      (parent.resources b t name).1 ++ (m.registry.findAll t name m.lookups).1 := by
  rw [resources, Precedence.unlessReserved, if_neg (by simp [h])]

/-- A module loader lists first what it finds if its parent does, and for a reserved resource. -/
theorem leads_resources
    (h : b.config.isReserved name = true ∨
      Leads (parent.resource b t name).1 (parent.resources b t name).1) :
    Leads (m.resource b t name parent).1 (m.resources b t name parent).1 := by
  rw [leads_iff]
  cases hreserved : b.config.isReserved name with
  | true => rw [resource_of_reserved hreserved, resources_of_reserved hreserved]; rfl
  | false =>
    have hparent := leads_iff.1 (h.resolve_left (by simp [hreserved]))
    rw [resource_fst hreserved, resources_fst hreserved, List.head?_append, hparent]
    exact congrArg _ Registry.findIn_eq_head?_findAllIn

/-- A module loader whose parent finds a resource and lists none lists first what it finds exactly
if its own first copy lies at the same place. -/
theorem leads_resources_iff (hreserved : b.config.isReserved name = false) {l : Location}
    (found : (parent.resource b t name).1 = some l)
    (unlisted : (parent.resources b t name).1 = []) :
    Leads (m.resource b t name parent).1 (m.resources b t name parent).1 ↔
      (m.registry.find? t name m.lookups).1 = some l := by
  have hown : (m.registry.findAll t name m.lookups).1.head? =
      (m.registry.find? t name m.lookups).1 := Registry.findIn_eq_head?_findAllIn.symm
  rw [leads_iff, resource_fst hreserved, resources_fst hreserved, found, unlisted, List.nil_append,
    hown, Option.some_or]
  exact eq_comm

end ModuleLoader

section SearchPath

variable {β : Type} {config : Config} {bootstrap : BootstrapLoader β} {t : FileTree}
  {name : String}

namespace Pipeline

variable {s s' : Pipeline SearchPath β}

/-- No registered origin has a resource, and its copies along the search path are marred. -/
def Overlooks (t : FileTree) (name : String) (s : Pipeline SearchPath β) : Prop :=
  (∀ o ∈ s.registry.order, o.shows t s.lookups.archives name = false) ∧
    s.fallback.Marred t name

/-- A pipeline over a search path lists first what it finds, unless it overlooks a copy. Then it
lists none. -/
theorem leads_or_overlooks (config : Config) (bootstrap : BootstrapLoader β) (t : FileTree)
    (name : String) (hr : s.registry.Consistent) (hf : s.fallback.registry.Consistent) :
    let b := Blueprint.overSearchPath config bootstrap
    ¬s.Overlooks t name ∧ Leads (s.resource b t name).1 (s.resources b t name).1 ∨
      s.Overlooks t name ∧ (∃ l, (s.resource b t name).1 = some l) ∧
        (s.resources b t name).1 = [] := by
  intro b
  have hplace : (s.registry.find? t name s.lookups).1 = none ↔
      ∀ o ∈ s.registry.order, o.shows t s.lookups.archives name = false := by
    unfold Registry.find?
    rw [hr.findIn_fst (fun _ ho => ho) (.refl t s.registry.order _), Option.map_eq_none_iff,
      List.find?_eq_none]
    simp only [Bool.not_eq_true]
  by_cases h : s.Overlooks t name
  · obtain ⟨hnone, hmarred⟩ := h
    obtain ⟨⟨found, hfound⟩, hnil⟩ := SearchPath.resolve_of_marred hf hmarred
    refine Or.inr ⟨⟨hnone, hmarred⟩, ⟨found.location, ?_⟩, ?_⟩
    · rw [resource_fst, hplace.2 hnone, Option.none_or]
      exact congrArg (Option.map (·.location)) hfound
    · rw [resources_fst, if_pos (Registry.findAll_eq_nil_iff.2 (hplace.2 hnone))]
      exact congrArg (List.map (·.location)) hnil
  · exact Or.inl ⟨h, leads_resources fun hnone =>
      SearchPath.resolve_eq_head? hf fun hmarred => h ⟨hplace.1 hnone, hmarred⟩⟩

/-- A pipeline over a search path has been searched since: some views were opened, on the same
files. -/
structure Viewed (t : FileTree) (s s' : Pipeline SearchPath β) : Prop where
  /-- The registered origins are the same. -/
  registry_eq : s'.registry = s.registry
  /-- Their views were opened. -/
  opens : s.lookups.archives.Opens t s.registry.order s'.lookups.archives
  /-- The origins of the search path are the same. -/
  fallback_eq : s'.fallback.registry = s.fallback.registry
  /-- Their views were opened. -/
  fallback_opens : s.fallback.lookups.archives.Opens t s.fallback.registry.order
    s'.fallback.lookups.archives

theorem viewed_resource (bootstrap : BootstrapLoader β) (t : FileTree) (name : String)
    (s : Pipeline SearchPath β) :
    Viewed t s (s.resource (.overSearchPath config bootstrap) t name).2 := by
  have hopens := s.registry.opens_find? t name s.lookups
  have hfallback := s.fallback.registry.opens_resolve? t name s.fallback.lookups
  unfold resource
  generalize s.registry.find? t name s.lookups = r at hopens
  rcases r with ⟨_ | l, lookups⟩
  · change Viewed t s { s with lookups, fallback := (s.fallback.resolve t name).2 }
    rw [SearchPath.resolve_snd]
    exact ⟨rfl, hopens, rfl, hfallback⟩
  · exact ⟨rfl, hopens, rfl, .refl t _ _⟩

theorem viewed_resources (bootstrap : BootstrapLoader β) (t : FileTree) (name : String)
    (s : Pipeline SearchPath β) :
    Viewed t s (s.resources (.overSearchPath config bootstrap) t name).2 := by
  have hopens := s.registry.opens_findAll t name s.lookups
  have hfallback := s.fallback.registry.opens_resolveAll t name s.fallback.lookups
  unfold resources
  generalize s.registry.findAll t name s.lookups = r at hopens
  rcases r with ⟨_ | ⟨l, ls⟩, lookups⟩
  · change Viewed t s { s with lookups, fallback := (s.fallback.resolveAll t name).2 }
    rw [SearchPath.resolveAll_snd]
    exact ⟨rfl, hopens, rfl, hfallback⟩
  · exact ⟨rfl, hopens, rfl, .refl t _ _⟩

/-- What a pipeline finds does not depend on the views that were opened since. -/
theorem Viewed.resource_fst (h : Viewed t s s') (hr : s.registry.Consistent)
    (hf : s.fallback.registry.Consistent) (name : String) :
    (s'.resource (.overSearchPath config bootstrap) t name).1 =
      (s.resource (.overSearchPath config bootstrap) t name).1 := by
  have hfound : (s'.fallback.resolve t name).1 = (s.fallback.resolve t name).1 := by
    rw [SearchPath.resolve_eq, SearchPath.resolve_eq, h.fallback_eq,
      hf.resolve?_opened h.fallback_opens]
  rw [Pipeline.resource_fst, Pipeline.resource_fst, h.registry_eq, hr.find?_opened h.opens]
  exact congrArg (fun found => Option.or _ (found.map (·.location))) hfound

theorem Viewed.resources_fst (h : Viewed t s s') (hr : s.registry.Consistent)
    (hf : s.fallback.registry.Consistent) (name : String) :
    (s'.resources (.overSearchPath config bootstrap) t name).1 =
      (s.resources (.overSearchPath config bootstrap) t name).1 := by
  have hfound : (s'.fallback.resolveAll t name).1 = (s.fallback.resolveAll t name).1 := by
    rw [SearchPath.resolveAll_eq, SearchPath.resolveAll_eq, h.fallback_eq,
      hf.resolveAll_opened h.fallback_opens]
  rw [Pipeline.resources_fst, Pipeline.resources_fst, h.registry_eq, hr.findAll_opened h.opens]
  exact if_congr Iff.rfl (congrArg (List.map (·.location)) hfound) rfl

end Pipeline

namespace ModuleLoader

variable {m : ModuleLoader} {parent : Pipeline SearchPath β}

/-- A module loader over a search path has been searched since, and its parent with it. -/
structure Viewed (t : FileTree) (x y : ModuleLoader × Pipeline SearchPath β) : Prop where
  /-- The module's origins are the same. -/
  registry_eq : y.1.registry = x.1.registry
  /-- Their views were opened. -/
  opens : x.1.lookups.archives.Opens t x.1.registry.order y.1.lookups.archives
  /-- The parent has been searched. -/
  parent : Pipeline.Viewed t x.2 y.2

theorem viewed_resource (bootstrap : BootstrapLoader β) (t : FileTree) (name : String)
    (m : ModuleLoader) (parent : Pipeline SearchPath β) :
    Viewed t (m, parent)
      (m.resource (.overSearchPath config bootstrap) t name parent).2 := by
  have hparent : Pipeline.Viewed t parent
      (parent.resource (.overSearchPath config bootstrap) t name).2 :=
    Pipeline.viewed_resource bootstrap t name parent
  have hopens := m.registry.opens_find? t name m.lookups
  unfold resource Precedence.unlessReserved
  split
  · exact ⟨rfl, .refl t _ _, rfl, .refl t _ _, rfl, .refl t _ _⟩
  · generalize parent.resource (.overSearchPath config bootstrap) t name = r at hparent
    rcases r with ⟨_ | l, parent'⟩
    · exact ⟨rfl, hopens, hparent⟩
    · exact ⟨rfl, .refl t _ _, hparent⟩

theorem viewed_resources (bootstrap : BootstrapLoader β) (t : FileTree) (name : String)
    (m : ModuleLoader) (parent : Pipeline SearchPath β) :
    Viewed t (m, parent)
      (m.resources (.overSearchPath config bootstrap) t name parent).2 := by
  unfold resources Precedence.unlessReserved
  split
  · exact ⟨rfl, .refl t _ _, rfl, .refl t _ _, rfl, .refl t _ _⟩
  · exact ⟨rfl, m.registry.opens_findAll t name m.lookups,
      Pipeline.viewed_resources bootstrap t name parent⟩

variable {x y : ModuleLoader × Pipeline SearchPath β}

/-- What a module loader finds does not depend on the views that were opened since. -/
theorem Viewed.resource_fst (h : Viewed t x y) (hm : x.1.registry.Consistent)
    (hr : x.2.registry.Consistent) (hf : x.2.fallback.registry.Consistent) (name : String) :
    (y.1.resource (.overSearchPath config bootstrap) t name y.2).1 =
      (x.1.resource (.overSearchPath config bootstrap) t name x.2).1 := by
  cases hreserved : (Blueprint.overSearchPath config bootstrap).config.isReserved name with
  | true => rw [resource_of_reserved hreserved, resource_of_reserved hreserved]
  | false =>
    rw [ModuleLoader.resource_fst hreserved, ModuleLoader.resource_fst hreserved,
      h.parent.resource_fst hr hf, h.registry_eq, hm.find?_opened h.opens]

theorem Viewed.resources_fst (h : Viewed t x y) (hm : x.1.registry.Consistent)
    (hr : x.2.registry.Consistent) (hf : x.2.fallback.registry.Consistent) (name : String) :
    (y.1.resources (.overSearchPath config bootstrap) t name y.2).1 =
      (x.1.resources (.overSearchPath config bootstrap) t name x.2).1 := by
  cases hreserved : (Blueprint.overSearchPath config bootstrap).config.isReserved name with
  | true => rw [resources_of_reserved hreserved, resources_of_reserved hreserved]
  | false =>
    rw [ModuleLoader.resources_fst hreserved, ModuleLoader.resources_fst hreserved,
      h.parent.resources_fst hr hf, h.registry_eq, hm.findAll_opened h.opens]

end ModuleLoader

end SearchPath

namespace Ensemble

/-- A pipeline over a search path and its module loaders list first what they find, except for a
resource that the pipeline overlooks. Each answers the same right after it was asked the other
way. -/
structure LeadsUnlessOverlooked {β : Type} (config : Config) (bootstrap : BootstrapLoader β)
    (y : Ensemble SearchPath β) (name : String) : Prop where
  /-- The pipeline lists first what it finds exactly if it overlooks no copy. -/
  pipeline :
    let b := Blueprint.overSearchPath config bootstrap
    Leads (y.pipeline.resource b y.tree name).1 (y.pipeline.resources b y.tree name).1 ↔
      ¬y.pipeline.Overlooks y.tree name
  /-- So does a module loader, which besides hides reserved resources and may have a copy of its own
  at the place that the pipeline has found. -/
  module : ∀ m ∈ y.modules,
    let b := Blueprint.overSearchPath config bootstrap
    Leads (m.resource b y.tree name y.pipeline).1 (m.resources b y.tree name y.pipeline).1 ↔
      config.isReserved name = true ∨ ¬y.pipeline.Overlooks y.tree name ∨
        (m.registry.find? y.tree name m.lookups).1 = (y.pipeline.resource b y.tree name).1
  /-- The pipeline answers the same in either order. -/
  pipeline_again :
    let b := Blueprint.overSearchPath config bootstrap
    ((y.pipeline.resource b y.tree name).2.resources b y.tree name).1 =
        (y.pipeline.resources b y.tree name).1 ∧
      ((y.pipeline.resources b y.tree name).2.resource b y.tree name).1 =
        (y.pipeline.resource b y.tree name).1
  /-- So does a module loader. -/
  module_again : ∀ m ∈ y.modules,
    let b := Blueprint.overSearchPath config bootstrap
    let found := m.resource b y.tree name y.pipeline
    let listed := m.resources b y.tree name y.pipeline
    (found.2.1.resources b y.tree name found.2.2).1 = listed.1 ∧
      (listed.2.1.resource b y.tree name listed.2.2).1 = found.1

variable {β : Type} {config : Config} {bootstrap : BootstrapLoader β}

/-- In consistent registries that is so. -/
theorem leadsUnlessOverlooked {y : Ensemble SearchPath β} (hy : y.Consistent)
    (hf : y.pipeline.fallback.registry.Consistent) (name : String) :
    y.LeadsUnlessOverlooked config bootstrap name := by
  have hr : y.pipeline.registry.Consistent := hy .pipeline _ rfl
  have hcases := Pipeline.leads_or_overlooks config bootstrap y.tree name hr hf
  constructor
  case pipeline =>
    intro b
    rcases hcases with ⟨hnot, hleads⟩ | ⟨hoverlooks, ⟨l, hl⟩, hnil⟩
    · exact ⟨fun _ => hnot, fun _ => hleads⟩
    · refine ⟨fun hleads => ?_, fun hnot => absurd hoverlooks hnot⟩
      have := hleads.2.2 hnil
      rw [hl] at this
      cases this
  case module =>
    intro m _ b
    cases hreserved : config.isReserved name with
    | true => exact ⟨fun _ => Or.inl rfl, fun _ => ModuleLoader.leads_resources (Or.inl hreserved)⟩
    | false =>
      rcases hcases with ⟨hnot, hleads⟩ | ⟨hoverlooks, ⟨l, hl⟩, hnil⟩
      · exact ⟨fun _ => Or.inr (Or.inl hnot),
          fun _ => ModuleLoader.leads_resources (Or.inr hleads)⟩
      · rw [ModuleLoader.leads_resources_iff hreserved hl hnil, hl]
        simp [hoverlooks]
  case pipeline_again =>
    exact ⟨(Pipeline.viewed_resource bootstrap y.tree name _).resources_fst hr hf name,
      (Pipeline.viewed_resources bootstrap y.tree name _).resource_fst hr hf name⟩
  case module_again =>
    intro m h
    exact ⟨(ModuleLoader.viewed_resource bootstrap y.tree name m y.pipeline).resources_fst
        (hy.module h) hr hf name,
      (ModuleLoader.viewed_resources bootstrap y.tree name m y.pipeline).resource_fst
        (hy.module h) hr hf name⟩

/-- The origins of a search path stay consistent, whatever happens to the pipeline. -/
theorem fallback_consistent_run {t₀ : FileTree} {paths : List Path} {suffix : String}
    {f : SearchPath} (hf : SearchPath.ofPaths t₀ paths suffix = .ok f) (t : FileTree) (g : β)
    (os : List Occurrence) :
    ((start (.overSearchPath config bootstrap) t f g).run (.overSearchPath config bootstrap)
      os).pipeline.fallback.registry.Consistent := by
  obtain ⟨r, tags, hregister, rfl⟩ := SearchPath.eq_of_ofPaths hf
  refine pipeline_run (P := fun s : Pipeline SearchPath β => s.fallback.registry.Consistent) ?_ ?_
    (fun _ _ h => h) t os
  · exact SearchPath.register_induction (P := Registry.Consistent)
      (fun r p tag tags h => h.register t₀ p tag tags) Registry.consistent_empty hregister
  · intro t r s h
    have hgrows := @World.grows_step β config bootstrap ⟨t, s⟩ (.request r)
    exact hgrows.registry_eq ▸ h

/-- After every run, a pipeline and its module loaders list first what they find, if the fallback
loader sees one copy of a resource; over a search path they do so unless the pipeline overlooks a
copy. -/
theorem leads_run (β : Type) :
    (∀ (config : Config) (bootstrap : BootstrapLoader β) (t₀ : FileTree) (paths : List Path)
        (suffix : String) (f : SearchPath), SearchPath.ofPaths t₀ paths suffix = .ok f →
      ∀ (t : FileTree) (g : β) (os : List Occurrence) (name : String),
        let b := Blueprint.overSearchPath config bootstrap
        ((start b t f g).run b os).LeadsUnlessOverlooked config bootstrap name) ∧
    (∀ (φ : Type) (b : Blueprint φ β),
      b.fallback.resolveAll = FallbackLoader.single b.fallback.resolve →
      ∀ (t : FileTree) (f : φ) (g : β) (os : List Occurrence) (name : String),
        let y := (start b t f g).run b os
        Leads (y.pipeline.resource b y.tree name).1 (y.pipeline.resources b y.tree name).1 ∧
          ∀ m ∈ y.modules, Leads (m.resource b y.tree name y.pipeline).1
            (m.resources b y.tree name y.pipeline).1) := by
  constructor
  · intro config bootstrap t₀ paths suffix f hf t g os name b
    exact leadsUnlessOverlooked (consistent_run b t f g os) (fallback_consistent_run hf t g os) name
  · intro φ b hsingle t f g os name y
    have hleads : Leads (y.pipeline.resource b y.tree name).1
        (y.pipeline.resources b y.tree name).1 := by
      refine Pipeline.leads_resources fun _ => ?_
      rw [hsingle, FallbackLoader.single]
      exact Option.head?_toList.symm
    exact ⟨hleads, fun m _ => ModuleLoader.leads_resources (Or.inr hleads)⟩

/-- A module loader over a search path with two readable copies, and one over a memory with a copy,
list first what they find. -/
theorem leads_over_readable_copies :
    let t : FileTree :=
      ⟨[(["A"], .directory), (["A", "m"], .file ⟨#[49]⟩), (["B"], .directory),
        (["B", "m"], .file ⟨#[50]⟩)], []⟩
    let os : List Occurrence := [.join "mods", .module 0 (.addOrigin ⟨"/B"⟩)]
    let b := Blueprint.overSearchPath {} BootstrapLoader.none
    let b' : Blueprint Memory Unit := ⟨{}, Memory.loader, BootstrapLoader.none⟩
    let f' := Memory.empty.addResource "m" ⟨.entry ⟨"/a.tar"⟩ "m", ⟨#[49]⟩⟩
    (∃ f, SearchPath.ofPaths t [⟨"/A"⟩, ⟨"/B"⟩] ".sym" = .ok f ∧
      ((start b t f ()).run b os).LeadsUnlessOverlooked {} BootstrapLoader.none "m") ∧
    b'.fallback.resolveAll = FallbackLoader.single b'.fallback.resolve ∧
    let y := (start b' t f' ()).run b' os
    Leads (y.pipeline.resource b' y.tree "m").1 (y.pipeline.resources b' y.tree "m").1 := by
  intro t os b b' f'
  have hpath (f : SearchPath) (hf : SearchPath.ofPaths t [⟨"/A"⟩, ⟨"/B"⟩] ".sym" = .ok f) :
      ((start b t f ()).run b os).LeadsUnlessOverlooked {} BootstrapLoader.none "m" :=
    (leads_run Unit).1 {} BootstrapLoader.none t [⟨"/A"⟩, ⟨"/B"⟩] ".sym" f hf t () os "m"
  exact ⟨⟨_, rfl, hpath _ rfl⟩, rfl, ((leads_run Unit).2 Memory b' rfl t f' () os "m").1⟩

/-- A search path finds its first copy and lists none, since its second one cannot be read. -/
theorem unlisted_beside_unreadable :
    let t : FileTree :=
      ⟨[(["A"], .directory), (["A", "m"], .file ⟨#[49]⟩), (["B"], .directory),
        (["B", "m"], .unreadable)], []⟩
    let b := Blueprint.overSearchPath {} BootstrapLoader.none
    let os : List Occurrence := [.join "mods"]
    ∃ f, SearchPath.ofPaths t [⟨"/A"⟩, ⟨"/B"⟩] ".sym" = .ok f ∧
      let y := (start b t f ()).run b os
      (y.pipeline.resource b y.tree "m").1 = some (.file ⟨"/A/m"⟩) ∧
        (y.pipeline.resources b y.tree "m").1 = [] ∧
        ¬Leads (y.pipeline.resource b y.tree "m").1 (y.pipeline.resources b y.tree "m").1 ∧
        ∃ m ∈ y.modules, ¬Leads (m.resource b y.tree "m" y.pipeline).1
          (m.resources b y.tree "m" y.pipeline).1 := by
  intro t b os
  refine ⟨_, rfl, ?_⟩
  intro y
  have hone : (y.pipeline.resource b y.tree "m").1 = some (.file ⟨"/A/m"⟩) := by decide +kernel
  have hall : (y.pipeline.resources b y.tree "m").1 = [] := by decide +kernel
  refine ⟨hone, hall, ?_, ModuleLoader.ofName "mods", List.mem_singleton_self _, ?_⟩
  · rw [hone, hall]
    exact fun h => nomatch h.1
  · rw [ModuleLoader.leads_resources_iff rfl hone hall]
    exact nofun

end Ensemble

end Overlay
