import Overlay.Loader.Memory
import Overlay.Proofs.Loading

/-!
# What a load defines

A load defines its name from a draft: the raw definition that it fetches for a name which is not
defined and belongs to no other loader. Without a draft, and if the transformer refuses the draft,
a load leaves no trace in the tables; else it enters the transformed draft. `Settles` is the list
of these outcomes, from which the properties of what is defined, and of what is not, are read off.
-/

namespace Overlay.Pipeline

variable {φ β : Type} {b : Blueprint φ β} {t : FileTree} {name : String} {allowed : Bool}
  {s s' : Pipeline φ β}

/-- What a fetch answers, by what is found in the registered origins and in the fallback loader. -/
theorem fetch_fst (b : Blueprint φ β) (t : FileTree) (name : String) (allowed : Bool)
    (s : Pipeline φ β) :
    let resource := SymbolName.resource name b.config.resourceSuffix
    (s.fetch b t name allowed).1 =
      match (s.registry.resolve? t resource s.lookups).1 with
      | .error e => .error e
      | .ok (some (o, found)) => .ok (some ⟨found.bytes, some o.location, false⟩)
      | .ok none =>
        if allowed then
          match (b.fallback.resolve t resource s.fallback).1 with
          | none => .ok none
          | some found =>
            if s.registry.isShadowed t found.location resource then
              .error (.shadowed name found.location)
            else .ok (some ⟨found.bytes, found.location.codeSource? t resource, true⟩)
        else .ok none := by
  intro resource
  have hfound {answer : Except LoadError (Option Found)} {s₁ : Pipeline φ β}
      (h : s.resolveRegistered t resource = (answer, s₁)) :
      (s.registry.resolve? t resource s.lookups).1 = answer := congrArg Prod.fst h
  have hcopy {answer : Except LoadError (Option Found)} {copy : Option Resource}
      {s₁ s₂ : Pipeline φ β} (h : s.resolveRegistered t resource = (answer, s₁))
      (h' : s₁.resolveFallback b t resource = (copy, s₂)) :
      (b.fallback.resolve t resource s.fallback).1 = copy ∧ s₂.registry = s.registry := by
    obtain rfl : _ = s₁ := congrArg Prod.snd h
    obtain rfl : _ = s₂ := congrArg Prod.snd h'
    exact ⟨congrArg Prod.fst h', rfl⟩
  have hf := fetches_fetch b t name allowed s
  generalize s.fetch b t name allowed = r at hf ⊢
  cases hf with
  | unreadable found | registered found => rw [hfound found]
  | unasked found ha => rw [hfound found, ha]; rfl
  | absent found ha copy => rw [hfound found, ha, (hcopy found copy).1]; rfl
  | shadowed found ha copy hs | copied found ha copy hs =>
    rw [(hcopy found copy).2] at hs
    rw [hfound found, ha, (hcopy found copy).1]
    simp only [if_true, resource, hs, Bool.false_eq_true, if_false]

/-- A fetch gives the copy in the first registered origin that has the resource. If no origin has
it and the fallback loader may be asked, the fetch gives that loader's copy, unless it is shadowed. -/
theorem fetch_eq_some_iff {f : Fetched} :
    let resource := SymbolName.resource name b.config.resourceSuffix
    let found := (s.registry.resolve? t resource s.lookups).1
    (s.fetch b t name allowed).1 = .ok (some f) ↔
      (∃ o r, found = .ok (some (o, r)) ∧ f = ⟨r.bytes, some o.location, false⟩) ∨
        found = .ok none ∧ allowed = true ∧
          ∃ r, (b.fallback.resolve t resource s.fallback).1 = some r ∧
            s.registry.isShadowed t r.location resource = false ∧
            f = ⟨r.bytes, r.location.codeSource? t resource, true⟩ := by
  intro resource found
  rw [fetch_fst]
  dsimp only [found, resource]
  generalize SymbolName.resource name b.config.resourceSuffix = resource
  rcases (s.registry.resolve? t resource s.lookups).1 with e | _ | ⟨o, r⟩
  · simp
  · cases allowed with
    | false => simp
    | true =>
      rcases (b.fallback.resolve t resource s.fallback).1 with _ | r
      · simp
      · cases hs : s.registry.isShadowed t r.location resource <;> simp [hs, @eq_comm _ _ f]
  · simp [@eq_comm _ _ f]

/-- The raw definition that a load defines its name from. There is none if the name is defined,
belongs to another loader or has no raw definition. -/
def draft? (b : Blueprint φ β) (t : FileTree) (name : String) (allowed : Bool)
    (s : Pipeline φ β) : Option Fetched :=
  if s.defined.contains name || b.config.isSupport name || b.config.isBootstrap name then none
  else (s.fetch b t name (allowed || s.provenance.isFallbackSourced name)).1.toOption.join

/-- A name is the pipeline's to define. -/
structure Definable (b : Blueprint φ β) (name : String) (s : Pipeline φ β) : Prop where
  /-- The name is undefined. -/
  undefined : s.defined.get? name = none
  /-- The name is no support name. -/
  not_support : b.config.isSupport name = false
  /-- The name is no bootstrap name. -/
  not_bootstrap : b.config.isBootstrap name = false

/-- A draft is what is fetched for a name that is the pipeline's to define. -/
theorem draft?_eq_some_iff {f : Fetched} :
    s.draft? b t name allowed = some f ↔ s.Definable b name ∧
      (s.fetch b t name (allowed || s.provenance.isFallbackSourced name)).1 = .ok (some f) := by
  have hcontains : s.defined.contains name = false ↔ s.defined.get? name = none := by
    rw [Table.contains, Option.isSome_eq_false_iff, Option.isNone_iff_eq_none]
  unfold draft?
  generalize (s.fetch b t name (allowed || s.provenance.isFallbackSourced name)).1 = r
  split
  · rename_i h
    simp only [Bool.or_eq_true] at h
    constructor
    · intro hn
      cases hn
    · rintro ⟨⟨hd, hs, hb⟩, -⟩
      rw [← hcontains] at hd
      simp [hd, hs, hb] at h
  · rename_i h
    simp only [Bool.or_eq_true, not_or, Bool.not_eq_true] at h
    have hdefinable : s.Definable b name := ⟨hcontains.1 h.1.1, h.1.2, h.2⟩
    rcases r with e | _ | g <;> simp [Except.toOption, hdefinable]

/-- A load finds no draft of a name that is defined. -/
theorem draft?_of_defined {x : Symbol} (h : s.defined.get? name = some x) :
    s.draft? b t name allowed = none := by
  rw [Option.eq_none_iff_forall_ne_some]
  intro f hf
  rw [(draft?_eq_some_iff.1 hf).1.undefined] at h
  cases h

/-- A load hands its name over to the other loaders: there is no raw definition of a name that is
the pipeline's to define. -/
structure Delegated (b : Blueprint φ β) (t : FileTree) (name : String) (allowed : Bool)
    (s : Pipeline φ β) : Prop extends s.Definable b name where
  /-- There is no raw definition. -/
  unfetched : (s.fetch b t name (allowed || s.provenance.isFallbackSourced name)).1 = .ok none

/-- The load of a name that is handed over is its delegation. -/
theorem Delegated.loadDotted_eq (h : Delegated b t name allowed s) :
    s.loadDotted b t name allowed =
      (s.fetch b t name (allowed || s.provenance.isFallbackSourced name)).2.delegate b t name := by
  have hf := h.unfetched
  unfold loadDotted tryDefine
  generalize s.fetch b t name (allowed || s.provenance.isFallbackSourced name) = r at hf ⊢
  obtain ⟨r, s₁⟩ := r
  obtain rfl : r = .ok none := hf
  simp only [h.undefined, h.not_support, h.not_bootstrap, Bool.false_eq_true, if_false]

/-- A name that is handed over has no draft. -/
theorem Delegated.draft?_eq_none (h : Delegated b t name allowed s) :
    s.draft? b t name allowed = none := by
  rw [Option.eq_none_iff_forall_ne_some]
  intro f hf
  have hfetched := (draft?_eq_some_iff.1 hf).2
  rw [h.unfetched] at hfetched
  cases hfetched

section Log

/-- Reporting a missing symbol calls no transformer. -/
theorem transformed_orMissing (r : Option Symbol × Pipeline φ β) :
    (orMissing b name r).2.transformed = r.2.transformed := by
  rcases r with ⟨_ | x, s⟩
  · simp only [orMissing]
    split <;> rfl
  · rfl

/-- Fetching calls no transformer. -/
theorem transformed_fetch (b : Blueprint φ β) (t : FileTree) (name : String) (allowed : Bool)
    (s : Pipeline φ β) : (s.fetch b t name allowed).2.transformed = s.transformed := by
  have hf := fetches_fetch b t name allowed s
  generalize s.fetch b t name allowed = r at hf ⊢
  cases hf with
  | unreadable found | registered found | unasked found =>
    exact (congrArg (·.2.transformed) found).symm
  | absent found ha copy | shadowed found ha copy | copied found ha copy =>
    exact (congrArg (·.2.transformed) copy).symm.trans (congrArg (·.2.transformed) found).symm

/-- Delegating calls no transformer. -/
theorem transformed_delegate (b : Blueprint φ β) (t : FileTree) (name : String)
    (s : Pipeline φ β) : (s.delegate b t name).2.transformed = s.transformed := by
  have hd := delegates_delegate b t name s
  generalize s.delegate b t name = r at hd ⊢
  cases hd with
  | absent copy | asked copy =>
    exact (transformed_orMissing _).trans (congrArg (·.2.transformed) copy).symm
  | shadowed copy => exact (congrArg (·.2.transformed) copy).symm

/-- Defining calls no transformer. -/
theorem transformed_define (t : FileTree) (name : String) (f : Fetched) (bytes : ByteArray)
    (s : Pipeline φ β) : (s.define t name f bytes).2.transformed = s.transformed := by
  have hmark : (s.markFetched name f).transformed = s.transformed := by
    unfold markFetched
    split <;> rfl
  have hdescribe : ((s.markFetched name f).describe t f.codeSource).2.transformed =
      s.transformed := by
    unfold describe
    split <;> exact hmark
  have hnote : ∀ s' : Pipeline φ β, (s'.noteNamespace name).transformed = s'.transformed := by
    intro s'
    unfold noteNamespace
    split
    · rfl
    · split <;> rfl
  exact (hnote _).trans hdescribe

/-- What a transformation answers depends on the transformer and on its calls. -/
theorem transform_fst_congr (h : s'.transformer = s.transformer)
    (hlog : s'.transformed = s.transformed) (b : Blueprint φ β) (name : String)
    (bytes : ByteArray) :
    (s'.transform b name bytes).1 = (s.transform b name bytes).1 := by
  unfold transform
  rw [h, hlog]
  split
  · rfl
  · split
    · dsimp only
      split <;> rfl
    · rfl

/-- So does what it logs. -/
theorem transformed_transform_congr (h : s'.transformer = s.transformer)
    (hlog : s'.transformed = s.transformed) (b : Blueprint φ β) (name : String)
    (bytes : ByteArray) :
    (s'.transform b name bytes).2.transformed = (s.transform b name bytes).2.transformed := by
  unfold transform
  rw [h, hlog]
  split
  · exact hlog
  · split
    · dsimp only
      split <;> rfl
    · exact hlog

end Log

/-- A load enters a symbol that it makes from the draft of its name. -/
structure Enters (b : Blueprint φ β) (t : FileTree) (name : String) (allowed : Bool)
    (s : Pipeline φ β) (f : Fetched) (x : Symbol) : Prop where
  /-- The draft. -/
  drafted : s.draft? b t name allowed = some f
  /-- The bytes are what the draft is transformed to. -/
  transformed : (s.transform b name f.bytes).1 = .ok x.bytes
  /-- The symbol has the loaded name. -/
  name_eq : x.name = name
  /-- The symbol has the code source of the draft. -/
  codeSource_eq : x.codeSource = f.codeSource
  /-- The symbol tells whether the fallback loader supplied the draft. -/
  definedBy_eq : x.definedBy = if f.viaFallback then .layeredFromFallback else .layered

/-- A symbol is entered as one from the fallback loader if that loader supplied the draft. -/
theorem Enters.viaFallback_iff {f : Fetched} {x : Symbol} (h : Enters b t name allowed s f x) :
    f.viaFallback = true ↔ x.definedBy = .layeredFromFallback := by
  rw [h.definedBy_eq]
  cases f.viaFallback <;> simp

/-- How a load ends. -/
inductive Settles (b : Blueprint φ β) (t : FileTree) (name : String) (allowed : Bool)
    (s : Pipeline φ β) : Except LoadError Symbol × Pipeline φ β → Prop
  /-- There is no draft. -/
  | leaves {r : Except LoadError Symbol × Pipeline φ β}
      (undrafted : s.draft? b t name allowed = none) (tables : r.2.tables = s.tables)
      (log : r.2.transformed = s.transformed) : Settles b t name allowed s r
  /-- The transformer refuses the draft. -/
  | refuses {f : Fetched} {e : LoadError} {s' : Pipeline φ β}
      (drafted : s.draft? b t name allowed = some f)
      (refused : (s.transform b name f.bytes).1 = .error e) (tables : s'.tables = s.tables)
      (log : s'.transformed = (s.transform b name f.bytes).2.transformed) :
      Settles b t name allowed s (.error e, s')
  /-- The transformed draft is entered. -/
  | defines {f : Fetched} {x : Symbol} {s' : Pipeline φ β} (entered : Enters b t name allowed s f x)
      (defined_eq : s'.defined = s.defined.insert name x)
      (provenance_eq : s'.provenance = (s.markFetched name f).provenance)
      (transformer_eq : s'.transformer = s.transformer)
      (log : s'.transformed = (s.transform b name f.bytes).2.transformed) :
      Settles b t name allowed s (.ok x, s')

/-- Defining an undefined name enters the new symbol and answers with it. -/
theorem define_of_undefined (h : s.defined.get? name = none) (t : FileTree) (f : Fetched)
    (bytes : ByteArray) :
    (s.define t name f bytes).1 = s.newSymbol t name f bytes ∧
      (s.define t name f bytes).2.defined =
        s.defined.insert name (s.newSymbol t name f bytes) := by
  have hentered : (s.define t name f bytes).2.defined =
      s.defined.insert name (s.newSymbol t name f bytes) :=
    (congrArg Tables.defined (tables_define t name f bytes s)).trans
      (Table.insertIfAbsent_of_none h _)
  have hsymbol : (s.define t name f bytes).1 = ((s.define t name f bytes).2.defined.get?
      name).getD (s.newSymbol t name f bytes) := rfl
  rw [hsymbol, hentered, Table.get?_insert_self, Option.getD_some]
  exact ⟨rfl, rfl⟩

/-- Defining an undefined name leaves the other symbols alone. -/
theorem get?_define_of_some (h : s.defined.get? name = none) (t : FileTree) (f : Fetched)
    (bytes : ByteArray) {n : String} {x : Symbol} (hx : s.defined.get? n = some x) :
    (s.define t name f bytes).2.defined.get? n = some x := by
  have hne : n ≠ name := by
    rintro rfl
    rw [h] at hx
    cases hx
  rw [(define_of_undefined h t f bytes).2, Table.get?_insert_of_ne _ hne, hx]

/-- Which marks a definition sets depends on the marks alone. -/
theorem provenance_markFetched_congr (h : s'.provenance = s.provenance) (name : String)
    (f : Fetched) : (s'.markFetched name f).provenance = (s.markFetched name f).provenance := by
  unfold markFetched mark
  split
  · rw [h]
  · exact h

/-- Every load ends in one of these ways. -/
theorem settles_loadDotted (b : Blueprint φ β) (t : FileTree) (name : String) (allowed : Bool)
    (s : Pipeline φ β) : Settles b t name allowed s (s.loadDotted b t name allowed) := by
  have hl := loads_loadDotted b t name allowed s
  have hundrafted : (∀ f, (s.fetch b t name
      (allowed || s.provenance.isFallbackSourced name)).1 ≠ .ok (some f)) →
      s.draft? b t name allowed = none := by
    intro h
    rw [Option.eq_none_iff_forall_ne_some]
    intro f hf
    exact h f (draft?_eq_some_iff.1 hf).2
  have hlog {r : Except LoadError (Option Fetched)} {s₁ : Pipeline φ β}
      (hf : s.fetch b t name (allowed || s.provenance.isFallbackSourced name) = (r, s₁)) :
      s₁.transformed = s.transformed :=
    (congrArg (·.2.transformed) hf).symm.trans (transformed_fetch b t name _ s)
  have hslot {r : Except LoadError (Option Fetched)} {s₁ : Pipeline φ β}
      (hf : s.fetch b t name (allowed || s.provenance.isFallbackSourced name) = (r, s₁)) :
      s₁.transformer = s.transformer := transformer_of_tables (tables_of_fetch hf)
  generalize s.loadDotted b t name allowed = r at hl ⊢
  cases hl with
  | present hx => exact .leaves (draft?_of_defined hx) rfl rfl
  | support undefined hs =>
    exact .leaves (by simp [draft?, hs]) (by simp) (transformed_orMissing _)
  | bootstrap undefined hs hb =>
    exact .leaves (by simp [draft?, hb]) (by simp) (transformed_orMissing _)
  | unfetched undefined hs hb fetched =>
    exact .leaves (hundrafted (by simp [fetched])) (tables_of_fetch fetched) (hlog fetched)
  | delegated undefined hs hb fetched =>
    exact .leaves (hundrafted (by simp [fetched]))
      ((tables_delegate b t name _).trans (tables_of_fetch fetched))
      ((transformed_delegate b t name _).trans (hlog fetched))
  | untransformed undefined hs hb fetched refused =>
    refine .refuses (draft?_eq_some_iff.2 ⟨⟨undefined, hs, hb⟩, congrArg Prod.fst fetched⟩) ?_
      ((tables_of_transform refused).trans (tables_of_fetch fetched)) ?_
    · rw [← transform_fst_congr (hslot fetched) (hlog fetched), refused]
    · rw [← transformed_transform_congr (hslot fetched) (hlog fetched), refused]
  | @defines undefined hs hb f bytes s₁ s₂ fetched transformed =>
    have ht : s₂.tables = s.tables :=
      (tables_of_transform transformed).trans (tables_of_fetch fetched)
    have htables := tables_define t name f bytes s₂
    rw [← defined_of_tables ht] at undefined
    obtain ⟨hsymbol, hentered⟩ := define_of_undefined undefined t f bytes
    rw [defined_of_tables ht] at undefined hentered
    have hmade : (s.transform b name f.bytes).1 = .ok bytes := by
      rw [← transform_fst_congr (hslot fetched) (hlog fetched), transformed]
    rw [hsymbol]
    refine .defines (f := f) ⟨?_, hmade, rfl, rfl, rfl⟩ hentered ?_ ?_ ?_
    · exact draft?_eq_some_iff.2 ⟨⟨undefined, hs, hb⟩, congrArg Prod.fst fetched⟩
    · exact (congrArg Tables.provenance htables).trans
        (provenance_markFetched_congr (provenance_of_tables ht) name f)
    · exact (congrArg Tables.transformer htables).trans (transformer_of_tables ht)
    · rw [transformed_define, ← transformed_transform_congr (hslot fetched) (hlog fetched),
        transformed]

/-- A draft that the transformer accepts is defined by the load. -/
theorem exists_enters {f : Fetched} {bytes : ByteArray}
    (drafted : s.draft? b t name allowed = some f)
    (transformed : (s.transform b name f.bytes).1 = .ok bytes) :
    ∃ x, Enters b t name allowed s f x ∧
      (s.loadDotted b t name allowed).2.defined.get? name = some x := by
  have hs := settles_loadDotted b t name allowed s
  generalize s.loadDotted b t name allowed = r at hs ⊢
  cases hs with
  | leaves undrafted =>
    rw [undrafted] at drafted
    cases drafted
  | refuses drafted' refused =>
    obtain rfl := Option.some.inj (drafted.symm.trans drafted')
    rw [transformed] at refused
    cases refused
  | defines entered defined_eq =>
    obtain rfl := Option.some.inj (drafted.symm.trans entered.drafted)
    exact ⟨_, entered, by rw [defined_eq, Table.get?_insert_self]⟩

/-- What a load defines is the loaded name, by a symbol that it enters. -/
theorem enters_of_newly_defined {n : String} {x : Symbol}
    (h : (s.loadDotted b t name allowed).2.defined.get? n = some x)
    (hnew : s.defined.get? n ≠ some x) : n = name ∧ ∃ f, Enters b t name allowed s f x := by
  have hs := settles_loadDotted b t name allowed s
  generalize s.loadDotted b t name allowed = r at hs h
  cases hs with
  | leaves undrafted tables =>
    rw [defined_of_tables tables] at h
    exact absurd h hnew
  | refuses drafted refused tables =>
    rw [defined_of_tables tables] at h
    exact absurd h hnew
  | @defines f y s' entered defined_eq =>
    rw [defined_eq, Table.get?_insert] at h
    split at h
    · rename_i hn
      obtain rfl := Option.some.inj h
      exact ⟨hn, f, entered⟩
    · exact absurd h hnew

/-- A name has a definition that it did not have before, made in the given way. -/
def Gains (s s' : Pipeline φ β) (name : String) (how : DefinedBy) : Prop :=
  ∃ x, s'.defined.get? name = some x ∧ s.defined.get? name ≠ some x ∧ x.definedBy = how

theorem not_gains_of_defined_eq {n : String} {how : DefinedBy} (h : s'.defined = s.defined) :
    ¬s.Gains s' n how := by
  rintro ⟨x, hx, hne, -⟩
  rw [h] at hx
  exact hne hx

/-- What a load defines anew is its own name, if the transformer accepts the draft. -/
theorem gains_loadDotted_iff {n : String} {how : DefinedBy} :
    s.Gains (s.loadDotted b t name allowed).2 n how ↔
      n = name ∧ ∃ f bytes, s.draft? b t name allowed = some f ∧
        (s.transform b name f.bytes).1 = .ok bytes ∧
        how = if f.viaFallback then .layeredFromFallback else .layered := by
  constructor
  · rintro ⟨x, hx, hne, rfl⟩
    obtain ⟨rfl, f, entered⟩ := enters_of_newly_defined hx hne
    exact ⟨rfl, f, x.bytes, entered.drafted, entered.transformed, entered.definedBy_eq⟩
  · rintro ⟨rfl, f, bytes, drafted, transformed, rfl⟩
    obtain ⟨x, entered, hx⟩ := exists_enters drafted transformed
    have undefined := (draft?_eq_some_iff.1 drafted).1.undefined
    exact ⟨x, hx, by simp [undefined], entered.definedBy_eq⟩

/-- A load keeps what is defined. -/
theorem get?_loadDotted {n : String} {x : Symbol} (h : s.defined.get? n = some x)
    (b : Blueprint φ β) (t : FileTree) (name : String) (allowed : Bool) :
    (s.loadDotted b t name allowed).2.defined.get? n = some x := by
  have hs := settles_loadDotted b t name allowed s
  generalize s.loadDotted b t name allowed = r at hs ⊢
  cases hs with
  | leaves undrafted tables => rwa [defined_of_tables tables]
  | refuses drafted refused tables => rwa [defined_of_tables tables]
  | defines entered defined_eq =>
    have hne : n ≠ name := by
      rintro rfl
      rw [(draft?_eq_some_iff.1 entered.drafted).1.undefined] at h
      cases h
    rwa [defined_eq, Table.get?_insert_of_ne _ hne]

end Overlay.Pipeline

namespace Overlay.World

variable {φ β : Type} {b : Blueprint φ β} {w : World φ β} {name : String} {x : Symbol}

/-- An event is a load or changes no definition. -/
theorem load_or_defined_step (b : Blueprint φ β) (w : World φ β) (e : Event) :
    (∃ spelling allowed, e = .request (.load spelling allowed)) ∨
      (w.step b e).pipeline.defined = w.pipeline.defined := by
  cases e with
  | files t => exact Or.inr rfl
  | request r =>
    by_cases hr : ∃ spelling allowed, r = .load spelling allowed
    · obtain ⟨spelling, allowed, rfl⟩ := hr
      exact Or.inl ⟨spelling, allowed, rfl⟩
    · right
      apply Request.defined_run_of_ne_load
      intro spelling allowed he
      exact hr ⟨spelling, allowed, he⟩

/-- A name becomes defined by a load of it, which enters the symbol. -/
theorem enters_of_newly_defined {e : Event}
    (h : (w.step b e).pipeline.defined.get? name = some x)
    (hnew : w.pipeline.defined.get? name ≠ some x) :
    ∃ spelling allowed f, e = .request (.load spelling allowed) ∧
      SymbolName.dotted spelling = name ∧
      Pipeline.Enters b w.tree name allowed w.pipeline f x := by
  rcases w.load_or_defined_step b e with ⟨spelling, allowed, rfl⟩ | hsame
  · rw [pipeline_load] at h
    obtain ⟨rfl, f, hf⟩ := Pipeline.enters_of_newly_defined h hnew
    exact ⟨spelling, allowed, f, rfl, rfl, hf⟩
  · rw [hsame] at h
    exact absurd h hnew

/-- What is defined stays defined as it is. -/
theorem get?_step (h : w.pipeline.defined.get? name = some x) (e : Event) :
    (w.step b e).pipeline.defined.get? name = some x := by
  rcases w.load_or_defined_step b e with ⟨spelling, allowed, rfl⟩ | hsame
  · rw [pipeline_load]
    exact Pipeline.get?_loadDotted h b _ _ _
  · rwa [hsame]

theorem get?_run (h : w.pipeline.defined.get? name = some x) (es : List Event) :
    (w.run b es).pipeline.defined.get? name = some x := by
  induction es generalizing w with
  | nil => exact h
  | cons e es ih =>
    rw [run_cons]
    exact ih (get?_step h e)

end Overlay.World

namespace Overlay.Request

variable {φ β : Type}

/-- In every state that a run reaches, a load that fails leaves the tables as they are, and so does
one that answers with a symbol which the pipeline did not define: a support symbol, a bootstrap
symbol, a symbol of a delegated name, or whatever else is not the definition of the name. The
requests that only ask leave the tables as they are, too. -/
theorem tables_eq_of_undefined_run (b : Blueprint φ β) (t : FileTree) (f : φ) (g : β)
    (es : List Event) :
    let w := (World.start b t f g).run b es
    (∀ name allowed,
      let n := SymbolName.dotted name
      let r := (load name allowed).run b w.tree w.pipeline
      (∀ e, r.1 = .symbol (.error e) → r.2.tables = w.pipeline.tables) ∧
        ∀ x, r.1 = .symbol (.ok x) →
          b.config.isSupport n = true ∨ b.config.isBootstrap n = true ∨
            Pipeline.Delegated b w.tree n allowed w.pipeline ∨ r.2.defined.get? n ≠ some x →
          r.2.tables = w.pipeline.tables) ∧
      ∀ r : Request, r.asks = true →
        (r.run b w.tree w.pipeline).2.tables = w.pipeline.tables := by
  intro w
  refine ⟨?_, fun r h => tables_run_of_asks h b w.tree w.pipeline⟩
  intro name allowed n
  rw [run_load]
  have hs := Pipeline.settles_loadDotted b w.tree n allowed w.pipeline
  generalize w.pipeline.loadDotted b w.tree n allowed = r at hs
  cases hs with
  | leaves undrafted tables => exact ⟨fun _ _ => tables, fun _ _ _ => tables⟩
  | refuses drafted refused tables => exact ⟨fun _ _ => tables, fun _ _ _ => tables⟩
  | @defines draft y s' entered defined_eq =>
    have hown := (Pipeline.draft?_eq_some_iff.1 entered.drafted).1
    refine ⟨?_, ?_⟩
    · intro e he
      cases he
    · rintro x hx (hs | hb | hd | hn)
      · have hnot := hown.not_support
        rw [hs] at hnot
        cases hnot
      · have hnot := hown.not_bootstrap
        rw [hb] at hnot
        cases hnot
      · have hdrafted := entered.drafted
        rw [hd.draft?_eq_none] at hdrafted
        cases hdrafted
      · cases hx
        exact absurd (by rw [defined_eq, Table.get?_insert_self]) hn

/-- A name that the fallback loader answers for is handed over to it without a trace, and so is one
that nobody has. -/
theorem tables_eq_of_handed_over :
    let own : Symbol := ⟨"m", ByteArray.empty, none, Descriptor.empty, .fallback⟩
    let stored : Resource := ⟨.entry ⟨"/a.tar"⟩ "m.sym", ByteArray.empty⟩
    let f : Memory := (Memory.empty.addResource "m.sym" stored).addSymbol own
    let b : Blueprint Memory Unit := ⟨{}, Memory.loader, BootstrapLoader.none⟩
    let t : FileTree := ⟨[], []⟩
    let w := (World.start b t f ()).run b [.request (.mark "n")]
    let r := (load "m" false).run b w.tree w.pipeline
    let r' := (load "n" true).run b w.tree w.pipeline
    (r.1 = .symbol (.ok own) ∧ r.2.tables = w.pipeline.tables) ∧
      r'.1 = .symbol (.error (.notFound "n")) ∧ r'.2.tables = w.pipeline.tables := by
  intro own stored f b t w r r'
  obtain ⟨hload, -⟩ := tables_eq_of_undefined_run b t f () [.request (.mark "n")]
  have hr : r.1 = .symbol (.ok own) := rfl
  have hr' : r'.1 = .symbol (.error (.notFound "n")) := rfl
  have hundefined : r.2.defined.get? (SymbolName.dotted "m") ≠ some own := by decide +kernel
  exact ⟨⟨hr, (hload "m" false).2 own hr (Or.inr (Or.inr (Or.inr hundefined)))⟩, hr',
    (hload "n" true).1 _ hr'⟩

end Overlay.Request
