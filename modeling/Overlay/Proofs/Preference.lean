import Overlay.Proofs.Ensemble
import Overlay.Proofs.Lookups
import Overlay.Proofs.Slots

/-!
# Which copy a module loader uses

For a name that it has no symbol of, a module loader asks its parent and then weighs the answer
against its own copy: the copy goes before an early symbol, makes up for one that is missing or
shadowed, and never covers another error. What it takes from its own origins it keeps, and answers
with from then on; what it takes from its parent it leaves to the parent.
-/

namespace Overlay

variable {φ β : Type}

/-- The error says that there is no symbol, or none outside the registered origins. -/
def LoadError.IsMissing (e : LoadError) : Prop :=
  (∃ n, e = .notFound n) ∨ ∃ n l, e = .shadowed n l

theorem LoadError.isNotFound_iff {e : LoadError} : e.isNotFound = true ↔ e.IsMissing := by
  cases e <;> simp [isNotFound, IsMissing]

namespace ModuleLoader

/-- The copy of a name in the module's own origins, as a look-up now would find it. -/
def ownCopy (b : Blueprint φ β) (t : FileTree) (n : String) (m : ModuleLoader) :
    Except LoadError (Option Found) :=
  (m.registry.resolve? t (SymbolName.resource n b.config.resourceSuffix) m.lookups).1

/-- A symbol is a module's own symbol of a name, made of a copy in one of its origins, and the
module keeps it. -/
structure Supplies (loader n : String) (o : Origin) (copy : Resource) (x : Symbol)
    (after : ModuleLoader × Pipeline φ β) : Prop where
  /-- It has the name that was asked for. -/
  name_eq : x.name = n
  /-- It has the content of the copy, which no transformer has touched. -/
  bytes_eq : x.bytes = copy.bytes
  /-- It comes from the origin. -/
  codeSource_eq : x.codeSource = some o.location
  /-- The module has defined it. -/
  definedBy_eq : x.definedBy = .module loader
  /-- It has the descriptor that the parent keeps for the origin. -/
  described : after.2.metadata.get? o.location = some x.descriptor
  /-- The module keeps it for the name. -/
  kept : after.1.symbols.get? n = some x

variable {b : Blueprint φ β} {t : FileTree} {n : String} {m : ModuleLoader} {parent : Pipeline φ β}
  {o : Origin} {copy : Resource}

/-- A copy in the module's own origins is defined and kept. -/
theorem loadLocal_of_copy (undefined : m.symbols.get? n = none)
    (h : m.ownCopy b t n = .ok (some (o, copy))) (parent : Pipeline φ β) :
    ∃ x, (m.loadLocal b t n parent).1 = some x ∧
      Supplies m.name n o copy x (m.loadLocal b t n parent).2 := by
  have hdescribed := MetadataCache.get?_descriptorFor_self t o.location parent.metadata
    parent.lookups
  unfold ownCopy at h
  unfold loadLocal
  rw [undefined]
  generalize m.registry.resolve? t (SymbolName.resource n b.config.resourceSuffix) m.lookups = r
    at h
  obtain ⟨found, lookups⟩ := r
  obtain rfl : found = .ok (some (o, copy)) := h
  simp only [keep, Table.insertIfAbsent_of_none undefined, Table.get?_insert_self,
    Option.getD_some]
  exact ⟨_, rfl, rfl, rfl, rfl, rfl, hdescribed, Table.get?_insert_self _ _ _⟩

/-- Without a copy that can be read the module defines nothing. -/
theorem loadLocal_of_no_copy (undefined : m.symbols.get? n = none)
    (h : ∀ o copy, m.ownCopy b t n ≠ .ok (some (o, copy))) (parent : Pipeline φ β) :
    (m.loadLocal b t n parent).1 = none ∧
      (m.loadLocal b t n parent).2.1.symbols = m.symbols := by
  unfold ownCopy at h
  unfold loadLocal
  rw [undefined]
  generalize m.registry.resolve? t (SymbolName.resource n b.config.resourceSuffix) m.lookups = r
    at h
  rcases r with ⟨e | _ | ⟨o, copy⟩, lookups⟩
  · exact ⟨rfl, rfl⟩
  · exact ⟨rfl, rfl⟩
  · exact absurd rfl (h o copy)

/-- Asking whether there is a copy does not change which one is found. -/
theorem ownCopy_hasLocal (h : m.registry.Consistent) :
    ((m.hasLocal t (SymbolName.resource n b.config.resourceSuffix)).2).ownCopy b t n =
      m.ownCopy b t n := by
  change (m.registry.resolve? t _ (m.registry.find? t _ m.lookups).2).1 = _
  rw [Registry.find?_snd]
  exact h.resolve?_again t _ m.lookups

/-- The module has the resource of a name exactly if looking for the copy does not come out
empty. -/
theorem hasLocal_eq_false_iff :
    (m.hasLocal t (SymbolName.resource n b.config.resourceSuffix)).1 = false ↔
      m.ownCopy b t n = .ok none := by
  unfold ownCopy
  rw [← Registry.find?_eq_none_iff]
  exact Option.isSome_eq_false_iff.trans Option.isNone_iff_eq_none

theorem ownLookup_has (b : Blueprint φ β) (t : FileTree) (resource : String) (m : ModuleLoader)
    (parent : Pipeline φ β) :
    (ownLookup b t).has resource (m, parent) =
      ((m.hasLocal t resource).1, (m.hasLocal t resource).2, parent) := rfl

theorem ownLookup_load (b : Blueprint φ β) (t : FileTree) (n : String) (m : ModuleLoader)
    (parent : Pipeline φ β) :
    (ownLookup b t).load n (m, parent) = m.loadLocal b t n parent := rfl

/-- The module's own copy goes before an early symbol. -/
theorem choose_of_copy (hm : m.registry.Consistent) (undefined : m.symbols.get? n = none)
    {tags : TagStore} {candidate : Symbol} (early : Precedence.isEarly tags candidate = true)
    (h : m.ownCopy b t n = .ok (some (o, copy))) (parent : Pipeline φ β) :
    let chosen := Precedence.choose b.config tags (ownLookup b t) n candidate (m, parent)
    Supplies m.name n o copy chosen.1 chosen.2 := by
  let resource := SymbolName.resource n b.config.resourceSuffix
  have hhas : (m.hasLocal t resource).1 = true := by
    rw [← Bool.not_eq_false, hasLocal_eq_false_iff, h]
    nofun
  obtain ⟨x, hx, hsupplies⟩ := loadLocal_of_copy (m := (m.hasLocal t resource).2) undefined
    ((ownCopy_hasLocal hm).trans h) parent
  unfold Precedence.choose
  rw [ownLookup_has, hhas]
  dsimp only
  rw [if_pos early, ownLookup_load]
  generalize (m.hasLocal t resource).2.loadLocal b t n parent = r at hx hsupplies
  obtain ⟨found, after⟩ := r
  obtain rfl : found = some x := hx
  exact hsupplies

/-- A symbol that is not early, or that the module has no copy of, is used as it is. -/
theorem choose_of_not_early_or_no_copy (hm : m.registry.Consistent)
    (undefined : m.symbols.get? n = none) {tags : TagStore} {candidate : Symbol}
    (h : Precedence.isEarly tags candidate = false ∨
      ∀ o copy, m.ownCopy b t n ≠ .ok (some (o, copy))) (parent : Pipeline φ β) :
    let chosen := Precedence.choose b.config tags (ownLookup b t) n candidate (m, parent)
    chosen.1 = candidate ∧ chosen.2.1.symbols = m.symbols := by
  let resource := SymbolName.resource n b.config.resourceSuffix
  unfold Precedence.choose
  rw [ownLookup_has]
  cases (m.hasLocal t resource).1 with
  | false => exact ⟨rfl, rfl⟩
  | true =>
    dsimp only
    split
    · rename_i early
      -- a copy that cannot be read counts as being there, but then loading it gives nothing
      have hno : ∀ o copy, m.ownCopy b t n ≠ .ok (some (o, copy)) := by
        rcases h with h | h
        · rw [h] at early
          cases early
        · exact h
      rw [← ownCopy_hasLocal hm] at hno
      obtain ⟨hnone, hsame⟩ := loadLocal_of_no_copy (m := (m.hasLocal t resource).2) undefined
        hno parent
      rw [ownLookup_load]
      generalize (m.hasLocal t resource).2.loadLocal b t n parent = r at hnone hsame
      obtain ⟨found, after⟩ := r
      obtain rfl : found = none := hnone
      exact ⟨rfl, hsame⟩
    · exact ⟨rfl, rfl⟩

/-- What a module loader makes of a name that it has no symbol of, by the answer of its parent and
by its own copy. -/
structure Decides (b : Blueprint φ β) (t : FileTree) (m : ModuleLoader) (parent : Pipeline φ β)
    (name : String) : Prop where
  /-- Its own copy goes before a symbol from an early origin. -/
  prefers {c : Symbol} {p : Path} {o : Origin} {copy : Resource}
    (answer : (parent.load b t (SymbolName.dotted name)).1 = .ok c)
    (source : c.codeSource = some p) (early : parent.tags.get? p = some .early)
    (own : m.ownCopy b t (SymbolName.dotted name) = .ok (some (o, copy))) :
    ∃ x, (m.load b t name parent).1 = .ok x ∧
      Supplies m.name (SymbolName.dotted name) o copy x (m.load b t name parent).2
  /-- Any other symbol, and one that it has no copy of, it uses as it is, and keeps nothing. -/
  keeps {c : Symbol} (answer : (parent.load b t (SymbolName.dotted name)).1 = .ok c)
    (other : (∀ p, c.codeSource = some p → parent.tags.get? p ≠ some .early) ∨
      ∀ o copy, m.ownCopy b t (SymbolName.dotted name) ≠ .ok (some (o, copy))) :
    (m.load b t name parent).1 = .ok c ∧
      (m.load b t name parent).2.1.symbols = m.symbols
  /-- Its own copy makes up for a symbol that is missing or shadowed. -/
  suppliesMissing {e : LoadError} {o : Origin} {copy : Resource}
    (answer : (parent.load b t (SymbolName.dotted name)).1 = .error e) (missing : e.IsMissing)
    (own : m.ownCopy b t (SymbolName.dotted name) = .ok (some (o, copy))) :
    ∃ x, (m.load b t name parent).1 = .ok x ∧
      Supplies m.name (SymbolName.dotted name) o copy x (m.load b t name parent).2
  /-- Without a copy there is no symbol. -/
  misses {e : LoadError}
    (answer : (parent.load b t (SymbolName.dotted name)).1 = .error e) (missing : e.IsMissing)
    (own : ∀ o copy, m.ownCopy b t (SymbolName.dotted name) ≠ .ok (some (o, copy))) :
    (m.load b t name parent).1 = .error (.notFound (SymbolName.dotted name)) ∧
      (m.load b t name parent).2.1.symbols = m.symbols
  /-- Any other error is passed on, whatever copy there is. -/
  fails {e : LoadError} (answer : (parent.load b t (SymbolName.dotted name)).1 = .error e)
    (serious : ¬ e.IsMissing) :
    (m.load b t name parent).1 = .error e ∧
      (m.load b t name parent).2.1.symbols = m.symbols

/-- A module loader decides so about every name that it has no symbol of. -/
theorem decides_of_undefined (hm : m.registry.Consistent) {name : String}
    (undefined : m.symbols.get? (SymbolName.dotted name) = none) :
    Decides b t m parent name := by
  have htags : (parent.load b t (SymbolName.dotted name)).2.tags = parent.tags :=
    Pipeline.tags_loadDotted b t _ false parent
  have hload : m.load b t name parent = m.loadDotted b t (SymbolName.dotted name) parent := rfl
  unfold loadDotted at hload
  rw [undefined] at hload
  rcases hr : parent.load b t (SymbolName.dotted name) with ⟨found, s⟩
  rw [hr] at htags hload
  dsimp only at htags hload
  constructor
  case prefers =>
    intro c p o copy answer source early own
    rw [hr] at answer
    obtain rfl : found = .ok c := answer
    dsimp only at hload
    rw [hload, htags]
    exact ⟨_, rfl, choose_of_copy hm undefined
      (Precedence.isEarly_eq_true_iff.2 ⟨p, source, early⟩) own s⟩
  case keeps =>
    intro c answer other
    rw [hr] at answer
    obtain rfl : found = .ok c := answer
    have hother : Precedence.isEarly parent.tags c = false ∨
        ∀ o copy, m.ownCopy b t (SymbolName.dotted name) ≠ .ok (some (o, copy)) := by
      refine other.imp_left fun hearly => ?_
      rw [← Bool.not_eq_true, Precedence.isEarly_eq_true_iff]
      rintro ⟨p, hp, htag⟩
      exact hearly p hp htag
    obtain ⟨hc, hsame⟩ := choose_of_not_early_or_no_copy hm undefined hother s
    dsimp only at hload
    rw [hload, htags]
    exact ⟨congrArg Except.ok hc, hsame⟩
  case suppliesMissing =>
    intro e o copy answer missing own
    rw [hr] at answer
    obtain rfl : found = .error e := answer
    obtain ⟨x, hx, hsupplies⟩ := loadLocal_of_copy undefined own s
    dsimp only at hload
    rw [hload, if_pos (LoadError.isNotFound_iff.2 missing)]
    generalize m.loadLocal b t (SymbolName.dotted name) s = r at hx hsupplies
    obtain ⟨own, after⟩ := r
    obtain rfl : own = some x := hx
    exact ⟨x, rfl, hsupplies⟩
  case misses =>
    intro e answer missing own
    rw [hr] at answer
    obtain rfl : found = .error e := answer
    obtain ⟨hnone, hsame⟩ := loadLocal_of_no_copy undefined own s
    dsimp only at hload
    rw [hload, if_pos (LoadError.isNotFound_iff.2 missing)]
    generalize m.loadLocal b t (SymbolName.dotted name) s = r at hnone hsame
    obtain ⟨own, after⟩ := r
    obtain rfl : own = none := hnone
    exact ⟨rfl, hsame⟩
  case fails =>
    intro e answer serious
    rw [hr] at answer
    obtain rfl : found = .error e := answer
    dsimp only at hload
    rw [hload, if_neg (mt LoadError.isNotFound_iff.1 serious)]
    exact ⟨rfl, rfl⟩

/-- A symbol that the module keeps is its answer. -/
theorem load_of_kept {name : String} {x : Symbol}
    (h : m.symbols.get? (SymbolName.dotted name) = some x) :
    (m.load b t name parent).1 = .ok x := by
  unfold load loadDotted
  rw [h]

end ModuleLoader

namespace Ensemble

/-- A module loader keeps a symbol for a name. -/
def Keeps (y : Ensemble φ β) (i : Nat) (n : String) (x : Symbol) : Prop :=
  ∃ m, y.modules[i]? = some m ∧ m.symbols.get? n = some x

variable {b : Blueprint φ β} {y : Ensemble φ β} {i : Nat} {n : String} {x : Symbol}

theorem Keeps.step (h : y.Keeps i n x) (o : Occurrence) : (y.step b o).Keeps i n x := by
  obtain ⟨m, hm, hx⟩ := h
  cases o with
  | parent e => exact ⟨m, hm, hx⟩
  | join name =>
    exact ⟨m, getElem?_append_of_some hm _, hx⟩
  | module j r =>
    cases hj : y.modules[j]? with
    | none =>
      rw [step_module_none hj]
      exact ⟨m, hm, hx⟩
    | some m' =>
      rw [step_module hj]
      unfold Keeps
      rw [getElem?_set_modules hj]
      by_cases hij : i = j
      · rw [if_pos hij]
        rw [hij, hj] at hm
        obtain rfl := Option.some.inj hm
        exact ⟨_, rfl, r.get?_run b y.tree y.pipeline hx⟩
      · rw [if_neg hij]
        exact ⟨m, hm, hx⟩

/-- What a module loader keeps it keeps for good. -/
theorem Keeps.run (h : y.Keeps i n x) (later : List Occurrence) : (y.run b later).Keeps i n x :=
  run_induction (P := fun y => y.Keeps i n x) h (fun _ o h => h.step o) later

theorem get?_defined_step (h : y.pipeline.defined.get? n = some x) (o : Occurrence) :
    (y.step b o).pipeline.defined.get? n = some x := by
  cases o with
  | parent e => exact World.get?_step h e
  | join name => exact h
  | module j r =>
    cases hj : y.modules[j]? with
    | none => rwa [step_module_none hj]
    | some m =>
      rw [step_module hj]
      exact r.get?_defined_run b y.tree m h

/-- What the pipeline has defined stays defined, whatever its module loaders do. -/
theorem get?_defined_run (h : y.pipeline.defined.get? n = some x) (later : List Occurrence) :
    (y.run b later).pipeline.defined.get? n = some x :=
  run_induction (P := fun y => y.pipeline.defined.get? n = some x) h
    (fun _ o h => get?_defined_step h o) later

/-- How the loads of a pipeline and its module loaders go together. -/
structure FollowsPolicy (b : Blueprint φ β) (y : Ensemble φ β) : Prop where
  /-- A module loader decides about every name that it has no symbol of. -/
  decides {i : Nat} {m : ModuleLoader} (loader : y.modules[i]? = some m) {name : String}
    (undefined : m.symbols.get? (SymbolName.dotted name) = none) :
    m.Decides b y.tree y.pipeline name
  /-- A symbol that it keeps is its answer, whatever happens later. -/
  decided {i : Nat} {m : ModuleLoader} (loader : y.modules[i]? = some m) {name : String}
    {x : Symbol} (kept : m.symbols.get? (SymbolName.dotted name) = some x)
    (later : List Occurrence) :
    let y' := y.run b later
    ∃ m', y'.modules[i]? = some m' ∧ (m'.load b y'.tree name y'.pipeline).1 = .ok x
  /-- The parent answers with its own definition, whatever its module loaders keep. -/
  parent {name : String} {x : Symbol}
    (defined : y.pipeline.defined.get? (SymbolName.dotted name) = some x)
    (later : List Occurrence) :
    let y' := y.run b later
    (y'.pipeline.load b y'.tree name).1 = .ok x

/-- After every run of a pipeline and any number of module loaders, each of the module loaders
decides by the answer of the pipeline, the tag of its origin and the module's own copy, and stays
with its decision for what it keeps. -/
theorem followsPolicy_run (b : Blueprint φ β) (t : FileTree) (f : φ) (g : β)
    (os : List Occurrence) : ((start b t f g).run b os).FollowsPolicy b := by
  constructor
  case decides =>
    intro i m loader name undefined
    have hm : m.registry.Consistent := by
      refine consistent_run b t f g os (.module i) m.registry ?_
      rw [registryOf?, loader, Option.map_some]
    exact ModuleLoader.decides_of_undefined hm undefined
  case decided =>
    intro i m loader name x kept later y'
    obtain ⟨m', hm', hx⟩ := Keeps.run (b := b) ⟨m, loader, kept⟩ later
    exact ⟨m', hm', ModuleLoader.load_of_kept hx⟩
  case parent =>
    intro name x defined later y'
    have hx := get?_defined_run (b := b) defined later
    change (y'.pipeline.loadDotted b y'.tree (SymbolName.dotted name) false).1 = .ok x
    unfold Pipeline.loadDotted
    rw [hx]

/-- The module keeps its own copy of a symbol, and the parent its early one. -/
example :
    let t : FileTree :=
      ⟨[(["ext"], .directory), (["ext", "A.sym"], .file ⟨#[49]⟩), (["lib"], .directory),
        (["lib", "A.sym"], .file ⟨#[50]⟩)], []⟩
    let b : Blueprint Memory Memory := ⟨{}, Memory.loader, Memory.bootstrapLoader⟩
    let y := (start b t Memory.empty Memory.empty).run b
      [.parent (.request (.register ⟨"/ext"⟩ (some .early))), .join "mods",
        .module 0 (.addOrigin ⟨"/lib"⟩), .module 0 (.load "A")]
    y.modules[0]?.bind (·.symbols.get? "A") =
        some ⟨"A", ⟨#[50]⟩, some ⟨"/lib"⟩, Descriptor.empty, .module "mods"⟩ ∧
      y.pipeline.defined.get? "A" =
        some ⟨"A", ⟨#[49]⟩, some ⟨"/ext"⟩, Descriptor.empty, .layered⟩ := by
  decide +kernel

end Ensemble

end Overlay
