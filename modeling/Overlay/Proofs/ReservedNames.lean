import Overlay.Proofs.Confinement
import Overlay.Proofs.Enumeration

/-!
# Reserved resource names

A module loader never looks for a reserved resource. It knows one by its text, up to the case of
ASCII letters, while origins look a name up by its components. So a name with the components of a
reserved one and another text, such as one with a doubled slash, leads to the reserved resource
wherever a registered origin has it under that name, and no other name does.
-/

namespace Overlay

/-- A component with its ASCII letters in lower case. -/
def Path.Component.folded : Path.Component → Path.Component
  | .name chars => .name (chars.map Char.toLower)
  | c => c

namespace Config

/-- Components are those of a reserved resource, up to the case of ASCII letters. -/
def Reserves (c : Config) (components : List Path.Component) : Prop :=
  ∃ reserved ∈ c.reservedResources,
    (Path.mk reserved).components.map Path.Component.folded =
      components.map Path.Component.folded

instance (c : Config) (components : List Path.Component) : Decidable (c.Reserves components) :=
  inferInstanceAs (Decidable (∃ reserved ∈ c.reservedResources,
    (Path.mk reserved).components.map Path.Component.folded =
      components.map Path.Component.folded))

/-- A location denotes a reserved resource of an origin: a file if the components that lead to it
from the origin are those of a reserved one, and an entry if its name's are. -/
inductive Denotes (c : Config) (o : Origin) : Location → Prop
  /-- A file below the origin. -/
  | file {p : Path} {below : List Path.Component}
      (components_eq : p.components = o.location.components ++ below)
      (reserved : c.Reserves below) : c.Denotes o (.file p)
  /-- An entry of the origin. -/
  | entry {name : String} (reserved : c.Reserves (Path.mk name).components) :
      c.Denotes o (.entry o.location name)

/-- A name respells a reserved one: it has the components of one, but is none by its text. -/
def Respells (c : Config) (name : String) : Prop :=
  c.isReserved name = false ∧ c.Reserves (Path.mk name).components

instance (c : Config) (name : String) : Decidable (c.Respells name) :=
  inferInstanceAs (Decidable (_ ∧ _))

/-- Where an origin keeps a resource, a reserved one is denoted exactly if the resource's name has
the components of one. -/
theorem denotes_locate_iff {c : Config} {o : Origin} {name : String}
    (h : Path.staysBelow name = true) :
    c.Denotes o (o.locate name) ↔ c.Reserves (Path.mk name).components := by
  have hjoin := Path.components_join o.location h
  unfold Origin.locate
  cases o.kind with
  | directory =>
    constructor
    · rintro (⟨hcomponents, hreserved⟩ | _)
      rw [hjoin] at hcomponents
      rwa [List.append_cancel_left hcomponents]
    · exact .file hjoin
  | archive =>
    constructor
    · rintro (_ | hreserved)
      exact hreserved
    · exact .entry

end Config

/-- An origin has only resources that stay below it. -/
theorem Origin.staysBelow_of_shows {t : FileTree} {a : ArchiveTable} {name : String} {o : Origin}
    (h : o.shows t a name = true) : Path.staysBelow name = true := by
  refine eq_true_of_ne_false fun hstrays => ?_
  rw [shows, holds_of_not_staysBelow hstrays] at h
  cases h

namespace Registry

variable {t : FileTree} {name : String} {r : Registry} {s : LookupState} {l : Location}

/-- The places that are listed are those of the origins that show the resource. -/
theorem Consistent.mem_findAll_iff (hr : r.Consistent) :
    l ∈ (r.findAll t name s).1 ↔
      ∃ o ∈ r.order, o.shows t s.archives name = true ∧ o.locate name = l := by
  rw [hr.findAll_fst (.refl t r.order _), List.mem_map]
  simp only [List.mem_filter, and_assoc]

/-- The place that is found is listed. -/
theorem mem_findAll_of_find? (h : (r.find? t name s).1 = some l) :
    l ∈ (r.findAll t name s).1 :=
  List.mem_of_head? (findIn_eq_head?_findAllIn.symm.trans h)

end Registry

/-- The locations that a pipeline's fallback loader gives of a resource, alone or among all. -/
def Pipeline.FallsBackTo {φ β : Type} (b : Blueprint φ β) (t : FileTree) (name : String)
    (s : Pipeline φ β) (l : Location) : Prop :=
  (b.fallback.resolve t name s.fallback).1.map (·.location) = some l ∨
    l ∈ (b.fallback.resolveAll t name s.fallback).1.map (·.location)

namespace ModuleLoader

variable {φ β : Type} {b : Blueprint φ β} {t : FileTree} {name : String} {m : ModuleLoader}
  {parent : Pipeline φ β} {o : Origin}

/-- A registered origin of a module loader or its parent has a resource. -/
inductive Serves (t : FileTree) (name : String) (m : ModuleLoader) (parent : Pipeline φ β)
    (o : Origin) : Prop
  /-- It is registered with the parent. -/
  | parent (registered : o ∈ parent.registry.order)
      (shown : o.shows t parent.lookups.archives name = true)
  /-- It is one of the module's own. -/
  | own (registered : o ∈ m.registry.order) (shown : o.shows t m.lookups.archives name = true)

/-- What an origin serves stays below it. -/
theorem Serves.staysBelow (h : m.Serves t name parent o) : Path.staysBelow name = true := by
  cases h with
  | parent registered shown => exact Origin.staysBelow_of_shows shown
  | own registered shown => exact Origin.staysBelow_of_shows shown

/-- The locations that a module loader tells of a resource, alone or among all. -/
def Tells (b : Blueprint φ β) (t : FileTree) (name : String) (m : ModuleLoader)
    (parent : Pipeline φ β) (l : Location) : Prop :=
  (m.resource b t name parent).1 = some l ∨ l ∈ (m.resources b t name parent).1

/-- It tells nothing of a reserved resource. -/
theorem not_tells_of_reserved (hreserved : b.config.isReserved name = true) {l : Location} :
    ¬m.Tells b t name parent l := by
  rintro (htold | htold)
  · rw [resource_of_reserved hreserved] at htold
    cases htold
  · rw [resources_of_reserved hreserved] at htold
    cases htold

/-- Every origin that serves a resource is told, unless the name is reserved. -/
theorem Serves.tells (h : m.Serves t name parent o) (hm : m.registry.Consistent)
    (hp : parent.registry.Consistent) (hreserved : b.config.isReserved name = false) :
    m.Tells b t name parent (o.locate name) := by
  refine Or.inr ?_
  rw [resources_fst hreserved, List.mem_append]
  cases h with
  | parent registered shown =>
    have hmem := hp.mem_findAll_iff.2 ⟨o, registered, shown, rfl⟩
    rw [Pipeline.resources_fst, if_neg (List.ne_nil_of_mem hmem)]
    exact Or.inl hmem
  | own registered shown => exact Or.inr (hm.mem_findAll_iff.2 ⟨o, registered, shown, rfl⟩)

/-- What is told comes from an origin that serves the resource, or from the parent's fallback
loader. -/
theorem source_of_tells (hm : m.registry.Consistent) (hp : parent.registry.Consistent)
    {l : Location} (h : m.Tells b t name parent l) :
    (∃ o, m.Serves t name parent o ∧ o.locate name = l) ∨ parent.FallsBackTo b t name l := by
  have hreserved : b.config.isReserved name = false :=
    eq_false_of_ne_true fun hreserved => not_tells_of_reserved hreserved h
  have hparent (hl : l ∈ (parent.registry.findAll t name parent.lookups).1) :
      ∃ o, m.Serves t name parent o ∧ o.locate name = l := by
    obtain ⟨o, ho, hshown, he⟩ := hp.mem_findAll_iff.1 hl
    exact ⟨o, .parent ho hshown, he⟩
  have hown (hl : l ∈ (m.registry.findAll t name m.lookups).1) :
      ∃ o, m.Serves t name parent o ∧ o.locate name = l := by
    obtain ⟨o, ho, hshown, he⟩ := hm.mem_findAll_iff.1 hl
    exact ⟨o, .own ho hshown, he⟩
  rcases h with htold | htold
  · rw [resource_fst hreserved, Pipeline.resource_fst] at htold
    rcases Option.or_eq_some_iff.1 htold with htold | ⟨-, htold⟩
    · rcases Option.or_eq_some_iff.1 htold with htold | ⟨-, htold⟩
      · exact Or.inl (hparent (Registry.mem_findAll_of_find? htold))
      · exact Or.inr (Or.inl htold)
    · exact Or.inl (hown (Registry.mem_findAll_of_find? htold))
  · rw [resources_fst hreserved, Pipeline.resources_fst, List.mem_append] at htold
    rcases htold with htold | htold
    · split at htold
      · exact Or.inr (Or.inr htold)
      · exact Or.inl (hparent htold)
    · exact Or.inl (hown htold)

/-- No location that is told of a resource and comes from a registered origin denotes a reserved
one. -/
def Hides (b : Blueprint φ β) (t : FileTree) (name : String) (m : ModuleLoader)
    (parent : Pipeline φ β) : Prop :=
  ∀ l, m.Tells b t name parent l → ∀ o, m.Serves t name parent o → o.locate name = l →
    ¬b.config.Denotes o l

/-- A module loader hides reserved resources exactly if no origin has the resource or its name does
not respell a reserved one. -/
theorem hides_iff (hm : m.registry.Consistent) (hp : parent.registry.Consistent) :
    m.Hides b t name parent ↔ ¬(b.config.Respells name ∧ ∃ o, m.Serves t name parent o) := by
  constructor
  · rintro h ⟨⟨hunreserved, hreserves⟩, o, ho⟩
    exact h _ (ho.tells hm hp hunreserved) o ho rfl
      ((Config.denotes_locate_iff ho.staysBelow).2 hreserves)
  · rintro h l htold o ho rfl hdenotes
    have hunreserved : b.config.isReserved name = false :=
      eq_false_of_ne_true fun hreserved => not_tells_of_reserved hreserved htold
    exact h ⟨⟨hunreserved, (Config.denotes_locate_iff ho.staysBelow).1 hdenotes⟩, o, ho⟩

end ModuleLoader

namespace Ensemble

variable {φ β : Type}

/-- After every run, what a module loader tells of a resource comes from registered origins, its own
or its parent's, or from the parent's fallback loader; and none of the former denotes a reserved
resource if and only if the name asked for does not respell a reserved one or no registered origin
has it. -/
theorem hides_iff_run (b : Blueprint φ β) (t : FileTree) (f : φ) (g : β) (os : List Occurrence)
    {m : ModuleLoader} (hm : m ∈ ((start b t f g).run b os).modules) (name : String) :
    let y := (start b t f g).run b os
    (∀ l, m.Tells b y.tree name y.pipeline l →
      (∃ o, m.Serves y.tree name y.pipeline o ∧ o.locate name = l) ∨
        y.pipeline.FallsBackTo b y.tree name l) ∧
    (m.Hides b y.tree name y.pipeline ↔
      ¬(b.config.Respells name ∧ ∃ o, m.Serves y.tree name y.pipeline o)) := by
  intro y
  have hconsistent : y.Consistent := consistent_run b t f g os
  have hown := hconsistent.module hm
  have hparent := hconsistent .pipeline _ rfl
  exact ⟨fun l h => ModuleLoader.source_of_tells hown hparent h,
    ModuleLoader.hides_iff hown hparent⟩

end Ensemble

namespace DoubledSlash

/-- A directory with two files two levels down. -/
def tree : FileTree :=
  ⟨[(["d"], .directory), (["d", "a"], .directory), (["d", "a", "m"], .file "1".toUTF8),
    (["d", "a", "n"], .file "2".toUTF8)], []⟩

/-- The first of them is reserved. -/
def blueprint : Blueprint Memory Unit :=
  ⟨{ reservedResources := ["a/m"] }, Memory.loader, BootstrapLoader.none⟩

/-- The directory is the origin of a module loader. -/
def occurrences : List Occurrence := [.join "mods", .module 0 (.addOrigin ⟨"/d"⟩)]

/-- The module loader, the files and the pipeline. -/
def ensemble : Ensemble Memory Unit :=
  (Ensemble.start blueprint tree Memory.empty ()).run blueprint occurrences

/-- The module loader. -/
def loader : ModuleLoader :=
  { ModuleLoader.ofName "mods" with registry := Registry.empty.append ⟨⟨"/d"⟩, .directory⟩ }

/-- The second file is found under a name with a doubled slash, and is no reserved one. -/
theorem other_file_is_told :
    loader ∈ ensemble.modules ∧
      (loader.resource blueprint ensemble.tree "a//n" ensemble.pipeline).1 =
        some (.file ⟨"/d/a//n"⟩) ∧
      loader.Hides blueprint ensemble.tree "a//n" ensemble.pipeline := by
  have hmem : loader ∈ ensemble.modules := by decide +kernel
  have hname : ¬blueprint.config.Respells "a//n" := by decide +kernel
  exact ⟨hmem, by decide +kernel,
    (Ensemble.hides_iff_run blueprint tree Memory.empty () occurrences hmem "a//n").2.2
      fun h => hname h.1⟩

/-- The first file is not found under its reserved name, but under one with a doubled slash. -/
theorem reserved_file_is_told :
    loader ∈ ensemble.modules ∧
      (loader.resource blueprint ensemble.tree "a/m" ensemble.pipeline).1 = none ∧
      (loader.resource blueprint ensemble.tree "a//m" ensemble.pipeline).1 =
        some (.file ⟨"/d/a//m"⟩) ∧
      blueprint.config.Denotes ⟨⟨"/d"⟩, .directory⟩ (.file ⟨"/d/a//m"⟩) ∧
      ¬loader.Hides blueprint ensemble.tree "a//m" ensemble.pipeline := by
  have htold : (loader.resource blueprint ensemble.tree "a//m" ensemble.pipeline).1 =
      some (.file ⟨"/d/a//m"⟩) := by decide +kernel
  have hserves : loader.Serves ensemble.tree "a//m" ensemble.pipeline ⟨⟨"/d"⟩, .directory⟩ :=
    .own List.mem_cons_self (by decide +kernel)
  have hdenotes : blueprint.config.Denotes ⟨⟨"/d"⟩, .directory⟩ (.file ⟨"/d/a//m"⟩) :=
    (Config.denotes_locate_iff hserves.staysBelow).2 (by decide +kernel)
  exact ⟨by decide +kernel, by decide +kernel, htold, hdenotes,
    fun h => h _ (Or.inl htold) _ hserves rfl hdenotes⟩

end DoubledSlash

end Overlay
