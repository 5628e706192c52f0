import Overlay.Proofs.Registration
import Overlay.Proofs.Run

/-!
# What the operations of a pipeline leave alone

The tables of a pipeline are all of its state but the live archive views, the notices, the log of
the transformer's calls and the states of the loaders below. Only registering, installing,
describing, marking and defining touch them: every look-up, every transformation and every
delegation leaves them as they are, and no load registers anything. `Fetches`, `Delegates` and
`Loads` list what a fetch, a delegation and a load can do, so that a property of them is shown one
case at a time.
-/

namespace Overlay.Pipeline

variable {φ β : Type}

/-- What a pipeline has registered, read, marked, installed and defined. -/
structure Tables where
  /-- The registered origins. -/
  registry : Registry
  /-- The tags of origins. -/
  tags : TagStore
  /-- The descriptors read so far. -/
  metadata : MetadataCache
  /-- The names that came from the fallback loader. -/
  provenance : Provenance
  /-- The installed transformer. -/
  transformer : Option Transformer
  /-- The symbols that the pipeline defined. -/
  defined : Table String Symbol
  /-- The namespaces of those symbols. -/
  namespaces : List String

/-- The tables of a pipeline. -/
def tables (s : Pipeline φ β) : Tables :=
  ⟨s.registry, s.tags, s.metadata, s.provenance, s.transformer, s.defined, s.namespaces⟩

theorem registry_of_tables {s s' : Pipeline φ β} (h : s'.tables = s.tables) :
    s'.registry = s.registry := congrArg Tables.registry h

theorem metadata_of_tables {s s' : Pipeline φ β} (h : s'.tables = s.tables) :
    s'.metadata = s.metadata := congrArg Tables.metadata h

theorem provenance_of_tables {s s' : Pipeline φ β} (h : s'.tables = s.tables) :
    s'.provenance = s.provenance := congrArg Tables.provenance h

theorem transformer_of_tables {s s' : Pipeline φ β} (h : s'.tables = s.tables) :
    s'.transformer = s.transformer := congrArg Tables.transformer h

theorem defined_of_tables {s s' : Pipeline φ β} (h : s'.tables = s.tables) :
    s'.defined = s.defined := congrArg Tables.defined h

theorem namespaces_of_tables {s s' : Pipeline φ β} (h : s'.tables = s.tables) :
    s'.namespaces = s.namespaces := congrArg Tables.namespaces h

@[simp] theorem tables_resolveRegistered (t : FileTree) (resource : String) (s : Pipeline φ β) :
    (s.resolveRegistered t resource).2.tables = s.tables := rfl

@[simp] theorem tables_resolveFallback (b : Blueprint φ β) (t : FileTree) (resource : String)
    (s : Pipeline φ β) : (s.resolveFallback b t resource).2.tables = s.tables := rfl

@[simp] theorem tables_askFallback (b : Blueprint φ β) (t : FileTree) (name : String)
    (s : Pipeline φ β) : (s.askFallback b t name).2.tables = s.tables := rfl

@[simp] theorem tables_askBootstrap (b : Blueprint φ β) (t : FileTree) (name : String)
    (s : Pipeline φ β) : (s.askBootstrap b t name).2.tables = s.tables := rfl

/-- Reporting a missing symbol leaves at most a notice. -/
@[simp] theorem tables_orMissing (b : Blueprint φ β) (name : String)
    (r : Option Symbol × Pipeline φ β) : (orMissing b name r).2.tables = r.2.tables := by
  rcases r with ⟨_ | x, s⟩
  · simp only [orMissing]
    split <;> rfl
  · rfl

/-- Looking into the fallback loader leaves the tables alone, also when the copy is refused. -/
@[simp] theorem tables_fetchFallback (b : Blueprint φ β) (t : FileTree) (name : String)
    (s : Pipeline φ β) : (s.fetchFallback b t name).2.tables = s.tables := by
  have h := tables_resolveFallback b t (SymbolName.resource name b.config.resourceSuffix) s
  unfold fetchFallback
  dsimp only
  split
  · rename_i he
    rw [he] at h
    exact h
  · rename_i he
    rw [he] at h
    split <;> exact h

/-- Fetching leaves the tables alone. -/
@[simp] theorem tables_fetch (b : Blueprint φ β) (t : FileTree) (name : String) (allowed : Bool)
    (s : Pipeline φ β) : (s.fetch b t name allowed).2.tables = s.tables := by
  have h := tables_resolveRegistered t (SymbolName.resource name b.config.resourceSuffix) s
  unfold fetch
  split
  · rename_i he
    rw [he] at h
    exact h
  · rename_i he
    rw [he] at h
    exact h
  · rename_i he
    rw [he] at h
    split
    · exact (tables_fetchFallback b t name _).trans h
    · exact h

/-- What transforming a raw definition can do. -/
inductive Transforms (b : Blueprint φ β) (name : String) (bytes : ByteArray)
    (s : Pipeline φ β) : Except LoadError ByteArray × Pipeline φ β → Prop
  /-- There is no transformer, or the name is excluded. -/
  | bypassed (uncalled : s.transformer = none ∨ b.config.canTransform name = false) :
      Transforms b name bytes s (.ok bytes, s)
  /-- The transformer answers. -/
  | made {tr : Transformer} {made : ByteArray} (installed : s.transformer = some tr)
      (hname : b.config.canTransform name = true)
      (run : tr.run s.transformed name bytes = .ok made) :
      Transforms b name bytes s
        (.ok made, { s with transformed := s.transformed ++ [(name, bytes)] })
  /-- The transformer fails. -/
  | failed {tr : Transformer} {cause : String} (installed : s.transformer = some tr)
      (hname : b.config.canTransform name = true)
      (run : tr.run s.transformed name bytes = .error cause) :
      Transforms b name bytes s (.error (.transform name cause),
        { s with transformed := s.transformed ++ [(name, bytes)] }.note
          (.transformFailed name cause))

/-- A transformation does one of these. -/
theorem transforms_transform (b : Blueprint φ β) (name : String) (bytes : ByteArray)
    (s : Pipeline φ β) : Transforms b name bytes s (s.transform b name bytes) := by
  unfold transform
  split
  · exact .bypassed (Or.inl ‹_›)
  · rename_i htr
    split
    · rename_i hname
      dsimp only
      split
      · exact .made htr hname ‹_›
      · exact .failed htr hname ‹_›
    · rename_i hname
      exact .bypassed (Or.inr (eq_false_of_ne_true hname))

/-- Transforming leaves the tables alone. -/
@[simp] theorem tables_transform (b : Blueprint φ β) (name : String) (bytes : ByteArray)
    (s : Pipeline φ β) : (s.transform b name bytes).2.tables = s.tables := by
  have ht := transforms_transform b name bytes s
  generalize s.transform b name bytes = r at ht
  cases ht <;> rfl

theorem tables_of_fetch {b : Blueprint φ β} {t : FileTree} {name : String} {allowed : Bool}
    {s s' : Pipeline φ β} {r : Except LoadError (Option Fetched)}
    (h : s.fetch b t name allowed = (r, s')) : s'.tables = s.tables := by
  rw [← tables_fetch b t name allowed s, h]

theorem tables_of_transform {b : Blueprint φ β} {name : String} {bytes : ByteArray}
    {s s' : Pipeline φ β} {r : Except LoadError ByteArray}
    (h : s.transform b name bytes = (r, s')) : s'.tables = s.tables := by
  rw [← tables_transform b name bytes s, h]

/-- Delegating leaves the tables alone, whichever loader answers. -/
@[simp] theorem tables_delegate (b : Blueprint φ β) (t : FileTree) (name : String)
    (s : Pipeline φ β) : (s.delegate b t name).2.tables = s.tables := by
  have h := tables_resolveFallback b t (SymbolName.resource name b.config.resourceSuffix) s
  unfold delegate
  dsimp only
  split
  · rename_i he
    rw [he] at h
    rw [tables_orMissing, tables_askBootstrap]
    exact h
  · rename_i he
    rw [he] at h
    split
    · exact h
    · rw [tables_orMissing, tables_askFallback]
      exact h

@[simp] theorem tables_resource (b : Blueprint φ β) (t : FileTree) (name : String)
    (s : Pipeline φ β) : (s.resource b t name).2.tables = s.tables := by
  unfold resource
  split <;> rfl

@[simp] theorem tables_resources (b : Blueprint φ β) (t : FileTree) (name : String)
    (s : Pipeline φ β) : (s.resources b t name).2.tables = s.tables := by
  unfold resources
  split <;> rfl

@[simp] theorem tables_resourceBytes (b : Blueprint φ β) (t : FileTree) (name : String)
    (s : Pipeline φ β) : (s.resourceBytes b t name).2.tables = s.tables := by
  have h := tables_resolveRegistered t name s
  unfold resourceBytes
  split <;> rename_i he <;> rw [he] at h <;> exact h

@[simp] theorem tables_rawBytes (b : Blueprint φ β) (t : FileTree) (name : String)
    (s : Pipeline φ β) : (s.rawBytes b t name).2.tables = s.tables := by
  have h := tables_fetch b t (SymbolName.dotted name) true s
  unfold rawBytes
  split <;> rename_i he <;> rw [he] at h <;> exact h

@[simp] theorem tables_symbolBytes (b : Blueprint φ β) (t : FileTree) (name : String)
    (transformed : Bool) (s : Pipeline φ β) :
    (s.symbolBytes b t name transformed).2.tables = s.tables := by
  have h := tables_fetch b t (SymbolName.dotted name) true s
  unfold symbolBytes
  split
  · rename_i he
    rw [he] at h
    exact h
  · rename_i he
    rw [he] at h
    exact h
  · rename_i f s₁ he
    rw [he] at h
    have ht := tables_transform b (SymbolName.dotted name) f.bytes s₁
    split
    · split <;> rename_i he' <;> rw [he'] at ht <;> exact ht.trans h
    · exact h

/-- Noting a namespace changes the namespaces alone, whatever the other tables hold. -/
theorem tables_noteNamespace (name : String) {s s' : Pipeline φ β}
    (h : s'.namespaces = s.namespaces) :
    (s'.noteNamespace name).tables =
      { s'.tables with namespaces := (s.noteNamespace name).namespaces } := by
  unfold noteNamespace
  rw [h]
  split
  · simp only [tables, h]
  · split
    · simp only [tables, h]
    · rfl

/-- Describing changes the descriptors alone. -/
theorem tables_describe (t : FileTree) (source : Option Path) (s : Pipeline φ β) :
    (s.describe t source).2.tables =
      { s.tables with metadata := (s.describe t source).2.metadata } := by
  cases source <;> rfl

/-- Marking a fetched name changes the marks alone. -/
theorem tables_markFetched (name : String) (f : Fetched) (s : Pipeline φ β) :
    (s.markFetched name f).tables =
      { s.tables with provenance := (s.markFetched name f).provenance } := by
  unfold markFetched
  split <;> rfl

/-- The symbol that a definition enters. -/
def newSymbol (t : FileTree) (name : String) (f : Fetched) (bytes : ByteArray)
    (s : Pipeline φ β) : Symbol where
  name := name
  bytes := bytes
  codeSource := f.codeSource
  descriptor := ((s.markFetched name f).describe t f.codeSource).1
  definedBy := if f.viaFallback then .layeredFromFallback else .layered

/-- Everything that a definition changes in the tables. -/
theorem tables_define (t : FileTree) (name : String) (f : Fetched) (bytes : ByteArray)
    (s : Pipeline φ β) :
    (s.define t name f bytes).2.tables = { s.tables with
      provenance := (s.markFetched name f).provenance
      metadata := ((s.markFetched name f).describe t f.codeSource).2.metadata
      namespaces := (s.noteNamespace name).namespaces
      defined := s.defined.insertIfAbsent name (s.newSymbol t name f bytes) } := by
  have hd : ((s.markFetched name f).describe t f.codeSource).2.tables = { s.tables with
      provenance := (s.markFetched name f).provenance
      metadata := ((s.markFetched name f).describe t f.codeSource).2.metadata } := by
    rw [tables_describe, tables_markFetched]
  have hn := tables_noteNamespace name (congrArg Tables.namespaces hd)
  rw [hd] at hn
  have hdef : (((s.markFetched name f).describe t f.codeSource).2.noteNamespace name).defined =
      s.defined := congrArg Tables.defined hn
  change ({ (((s.markFetched name f).describe t f.codeSource).2.noteNamespace name).tables with
    defined := (((s.markFetched name f).describe t f.codeSource).2.noteNamespace
      name).defined.insertIfAbsent name (s.newSymbol t name f bytes) } : Tables) = _
  rw [hn, hdef]

/-- What fetching a raw definition can do. -/
inductive Fetches (b : Blueprint φ β) (t : FileTree) (name : String) (allowed : Bool)
    (s : Pipeline φ β) : Except LoadError (Option Fetched) × Pipeline φ β → Prop
  /-- A registered origin has the resource but it cannot be read. -/
  | unreadable {e : LoadError} {s₁ : Pipeline φ β}
      (found : s.resolveRegistered t (SymbolName.resource name b.config.resourceSuffix) =
        (.error e, s₁)) : Fetches b t name allowed s (.error e, s₁)
  /-- A registered origin has the resource. -/
  | registered {o : Origin} {r : Resource} {s₁ : Pipeline φ β}
      (found : s.resolveRegistered t (SymbolName.resource name b.config.resourceSuffix) =
        (.ok (some (o, r)), s₁)) :
      Fetches b t name allowed s (.ok (some ⟨r.bytes, some o.location, false⟩), s₁)
  /-- No registered origin has the resource and the fallback loader is not to be asked. -/
  | unasked {s₁ : Pipeline φ β}
      (found : s.resolveRegistered t (SymbolName.resource name b.config.resourceSuffix) =
        (.ok none, s₁))
      (ha : allowed = false) : Fetches b t name allowed s (.ok none, s₁)
  /-- The fallback loader does not have the resource either. -/
  | absent {s₁ s₂ : Pipeline φ β}
      (found : s.resolveRegistered t (SymbolName.resource name b.config.resourceSuffix) =
        (.ok none, s₁))
      (ha : allowed = true)
      (copy : s₁.resolveFallback b t (SymbolName.resource name b.config.resourceSuffix) =
        (none, s₂)) : Fetches b t name allowed s (.ok none, s₂)
  /-- The fallback loader's copy lies in a registered origin. -/
  | shadowed {r : Resource} {s₁ s₂ : Pipeline φ β}
      (found : s.resolveRegistered t (SymbolName.resource name b.config.resourceSuffix) =
        (.ok none, s₁))
      (ha : allowed = true)
      (copy : s₁.resolveFallback b t (SymbolName.resource name b.config.resourceSuffix) =
        (some r, s₂))
      (hs : s₂.registry.isShadowed t r.location
        (SymbolName.resource name b.config.resourceSuffix) = true) :
      Fetches b t name allowed s
        (.error (.shadowed name r.location), s₂.note (.copyShadowed name r.location))
  /-- The fallback loader has the resource, outside all registered origins. -/
  | copied {r : Resource} {s₁ s₂ : Pipeline φ β}
      (found : s.resolveRegistered t (SymbolName.resource name b.config.resourceSuffix) =
        (.ok none, s₁))
      (ha : allowed = true)
      (copy : s₁.resolveFallback b t (SymbolName.resource name b.config.resourceSuffix) =
        (some r, s₂))
      (hs : s₂.registry.isShadowed t r.location
        (SymbolName.resource name b.config.resourceSuffix) = false) :
      Fetches b t name allowed s
        (.ok (some ⟨r.bytes, r.location.codeSource? t
          (SymbolName.resource name b.config.resourceSuffix), true⟩), s₂)

/-- A fetch does one of these. -/
theorem fetches_fetch (b : Blueprint φ β) (t : FileTree) (name : String) (allowed : Bool)
    (s : Pipeline φ β) : Fetches b t name allowed s (s.fetch b t name allowed) := by
  unfold fetch
  split
  · exact .unreadable ‹_›
  · exact .registered ‹_›
  · rename_i s₁ hf
    split
    · rename_i ha
      unfold fetchFallback
      dsimp only
      split
      · exact .absent hf ha ‹_›
      · rename_i hc
        split
        · exact .shadowed hf ha hc ‹_›
        · rename_i hs
          exact .copied hf ha hc (eq_false_of_ne_true hs)
    · rename_i ha
      exact .unasked hf (eq_false_of_ne_true ha)

/-- What delegating a name can do. -/
inductive Delegates (b : Blueprint φ β) (t : FileTree) (name : String) (s : Pipeline φ β) :
    Except LoadError Symbol × Pipeline φ β → Prop
  /-- The fallback loader does not have the resource, so the bootstrap loader is asked. -/
  | absent {s₁ : Pipeline φ β}
      (copy : s.resolveFallback b t (SymbolName.resource name b.config.resourceSuffix) =
        (none, s₁)) : Delegates b t name s (orMissing b name (s₁.askBootstrap b t name))
  /-- The fallback loader's copy lies in a registered origin. -/
  | shadowed {r : Resource} {s₁ : Pipeline φ β}
      (copy : s.resolveFallback b t (SymbolName.resource name b.config.resourceSuffix) =
        (some r, s₁))
      (hs : s₁.registry.isShadowed t r.location
        (SymbolName.resource name b.config.resourceSuffix) = true) :
      Delegates b t name s
        (.error (.shadowed name r.location), s₁.note (.delegateShadowed name r.location))
  /-- The fallback loader is asked for its own symbol. -/
  | asked {r : Resource} {s₁ : Pipeline φ β}
      (copy : s.resolveFallback b t (SymbolName.resource name b.config.resourceSuffix) =
        (some r, s₁))
      (hs : s₁.registry.isShadowed t r.location
        (SymbolName.resource name b.config.resourceSuffix) = false) :
      Delegates b t name s (orMissing b name (s₁.askFallback b t name))

/-- A delegation does one of these. -/
theorem delegates_delegate (b : Blueprint φ β) (t : FileTree) (name : String)
    (s : Pipeline φ β) : Delegates b t name s (s.delegate b t name) := by
  unfold delegate
  dsimp only
  split
  · exact .absent ‹_›
  · rename_i hc
    split
    · exact .shadowed hc ‹_›
    · rename_i hs
      exact .asked hc (eq_false_of_ne_true hs)

/-- What loading a name can do. -/
inductive Loads (b : Blueprint φ β) (t : FileTree) (name : String) (allowed : Bool)
    (s : Pipeline φ β) : Except LoadError Symbol × Pipeline φ β → Prop
  /-- The name is defined. -/
  | present {x : Symbol} (hx : s.defined.get? name = some x) : Loads b t name allowed s (.ok x, s)
  /-- A support name goes to the fallback loader. -/
  | support (undefined : s.defined.get? name = none) (hs : b.config.isSupport name = true) :
      Loads b t name allowed s (orMissing b name (s.askFallback b t name))
  /-- A bootstrap name goes to the bootstrap loader. -/
  | bootstrap (undefined : s.defined.get? name = none) (hs : b.config.isSupport name = false)
      (hb : b.config.isBootstrap name = true) :
      Loads b t name allowed s (orMissing b name (s.askBootstrap b t name))
  /-- The raw definition cannot be read or is refused. -/
  | unfetched (undefined : s.defined.get? name = none) (hs : b.config.isSupport name = false)
      (hb : b.config.isBootstrap name = false) {e : LoadError} {s₁ : Pipeline φ β}
      (fetched : s.fetch b t name (allowed || s.provenance.isFallbackSourced name) =
        (.error e, s₁)) : Loads b t name allowed s (.error e, s₁)
  /-- The transformer refuses the raw definition. -/
  | untransformed (undefined : s.defined.get? name = none) (hs : b.config.isSupport name = false)
      (hb : b.config.isBootstrap name = false) {f : Fetched} {e : LoadError} {s₁ s₂ : Pipeline φ β}
      (fetched : s.fetch b t name (allowed || s.provenance.isFallbackSourced name) =
        (.ok (some f), s₁))
      (transformed : s₁.transform b name f.bytes = (.error e, s₂)) :
      Loads b t name allowed s (.error e, s₂)
  /-- The name is defined now. -/
  | defines (undefined : s.defined.get? name = none) (hs : b.config.isSupport name = false)
      (hb : b.config.isBootstrap name = false) {f : Fetched} {bytes : ByteArray}
      {s₁ s₂ : Pipeline φ β}
      (fetched : s.fetch b t name (allowed || s.provenance.isFallbackSourced name) =
        (.ok (some f), s₁))
      (transformed : s₁.transform b name f.bytes = (.ok bytes, s₂)) :
      Loads b t name allowed s (.ok (s₂.define t name f bytes).1, (s₂.define t name f bytes).2)
  /-- There is no raw definition, so the name is delegated. -/
  | delegated (undefined : s.defined.get? name = none) (hs : b.config.isSupport name = false)
      (hb : b.config.isBootstrap name = false) {s₁ : Pipeline φ β}
      (fetched : s.fetch b t name (allowed || s.provenance.isFallbackSourced name) =
        (.ok none, s₁)) : Loads b t name allowed s (s₁.delegate b t name)

/-- A load does one of these. -/
theorem loads_loadDotted (b : Blueprint φ β) (t : FileTree) (name : String) (allowed : Bool)
    (s : Pipeline φ β) : Loads b t name allowed s (s.loadDotted b t name allowed) := by
  unfold loadDotted
  split
  · exact .present ‹_›
  · rename_i hu
    split
    · exact .support hu ‹_›
    · rename_i hs
      have hs' := eq_false_of_ne_true hs
      split
      · exact .bootstrap hu hs' ‹_›
      · rename_i hb
        have hb' := eq_false_of_ne_true hb
        unfold tryDefine
        cases hf : s.fetch b t name (allowed || s.provenance.isFallbackSourced name) with
        | mk result s₁ =>
          match result, hf with
          | .error e, hf => exact .unfetched hu hs' hb' hf
          | .ok none, hf => exact .delegated hu hs' hb' hf
          | .ok (some f), hf =>
            dsimp only
            cases ht : s₁.transform b name f.bytes with
            | mk result s₂ =>
              match result, ht with
              | .error e, ht => exact .untransformed hu hs' hb' hf ht
              | .ok bytes, ht => exact .defines hu hs' hb' hf ht

/-- What no load changes: the origins, their tags and the transformer. -/
def fixtures (s : Pipeline φ β) : Registry × TagStore × Option Transformer :=
  (s.registry, s.tags, s.transformer)

theorem fixtures_of_tables {s s' : Pipeline φ β} (h : s'.tables = s.tables) :
    s'.fixtures = s.fixtures :=
  congrArg (fun tables => (tables.registry, tables.tags, tables.transformer)) h

/-- A load leaves the origins, their tags and the transformer as they are. -/
theorem fixtures_loadDotted (b : Blueprint φ β) (t : FileTree) (name : String) (allowed : Bool)
    (s : Pipeline φ β) : (s.loadDotted b t name allowed).2.fixtures = s.fixtures := by
  have hl := loads_loadDotted b t name allowed s
  generalize s.loadDotted b t name allowed = r at hl
  cases hl with
  | present hx => rfl
  | support undefined hs => exact fixtures_of_tables (by simp)
  | bootstrap undefined hs hb => exact fixtures_of_tables (by simp)
  | unfetched undefined hs hb fetched => exact fixtures_of_tables (tables_of_fetch fetched)
  | untransformed undefined hs hb fetched transformed =>
    exact fixtures_of_tables ((tables_of_transform transformed).trans (tables_of_fetch fetched))
  | @defines undefined hs hb f bytes s₁ s₂ fetched transformed =>
    have ht := (tables_of_transform transformed).trans (tables_of_fetch fetched)
    have hd := congrArg (fun tables => (tables.registry, tables.tags, tables.transformer))
      (tables_define t name f bytes s₂)
    exact hd.trans (fixtures_of_tables ht)
  | delegated undefined hs hb fetched =>
    exact fixtures_of_tables ((tables_delegate b t name _).trans (tables_of_fetch fetched))

/-- A load registers nothing. -/
theorem registry_loadDotted (b : Blueprint φ β) (t : FileTree) (name : String) (allowed : Bool)
    (s : Pipeline φ β) : (s.loadDotted b t name allowed).2.registry = s.registry :=
  congrArg Prod.fst (fixtures_loadDotted b t name allowed s)

/-- A load tags nothing. -/
theorem tags_loadDotted (b : Blueprint φ β) (t : FileTree) (name : String) (allowed : Bool)
    (s : Pipeline φ β) : (s.loadDotted b t name allowed).2.tags = s.tags :=
  congrArg (·.2.1) (fixtures_loadDotted b t name allowed s)

end Overlay.Pipeline

namespace Overlay.Request

variable {φ β : Type}

/-- Whether a request only asks for something that is there. -/
def asks : Request → Bool
  | isLoaded _ | resource _ | resourceBytes _ | resources _ | rawBytes _ | symbolBytes _ _ => true
  | _ => false

/-- A request that only asks leaves the tables as they are. -/
theorem tables_run_of_asks {r : Request} (h : r.asks = true) (b : Blueprint φ β) (t : FileTree)
    (s : Pipeline φ β) : (r.run b t s).2.tables = s.tables := by
  cases r with
  | isLoaded name => rfl
  | resource name | resourceBytes name | resources name | rawBytes name => simp [run]
  | symbolBytes name transformed => simp [run]
  | register p tag | install tr | load name allowed | descriptor location | mark name => cases h

/-- Only a registration changes the registry. -/
theorem registry_run (b : Blueprint φ β) (t : FileTree) (r : Request) (s : Pipeline φ β) :
    (∃ p tag, r = .register p tag ∧
      (r.run b t s).2.registry = (s.registry.register t p tag s.tags).2.1) ∨
      (r.run b t s).2.registry = s.registry := by
  by_cases hasks : r.asks = true
  · exact Or.inr (Pipeline.registry_of_tables (tables_run_of_asks hasks b t s))
  cases r with
  | register p tag => exact Or.inl ⟨p, tag, rfl, rfl⟩
  | install tr =>
    simp only [run, Pipeline.install]
    split <;> exact Or.inr rfl
  | load name allowed =>
    rw [run_load]
    exact Or.inr (Pipeline.registry_loadDotted b t _ allowed s)
  | descriptor location | mark name => exact Or.inr rfl
  | _ => exact absurd rfl hasks

/-- Only a registration changes the tags. -/
theorem tags_run (b : Blueprint φ β) (t : FileTree) {r : Request}
    (hr : ∀ p tag, r ≠ .register p tag) (s : Pipeline φ β) : (r.run b t s).2.tags = s.tags := by
  by_cases hasks : r.asks = true
  · exact congrArg Pipeline.Tables.tags (tables_run_of_asks hasks b t s)
  cases r with
  | register p tag => exact absurd rfl (hr p tag)
  | install tr =>
    simp only [run, Pipeline.install]
    split <;> rfl
  | load name allowed =>
    rw [run_load]
    exact Pipeline.tags_loadDotted b t _ allowed s
  | descriptor location | mark name => rfl
  | _ => exact absurd rfl hasks

/-- A request other than a load defines nothing. -/
theorem defined_run_of_ne_load {r : Request} (hr : ∀ name allowed, r ≠ .load name allowed)
    (b : Blueprint φ β) (t : FileTree) (s : Pipeline φ β) :
    (r.run b t s).2.defined = s.defined := by
  by_cases hasks : r.asks = true
  · exact Pipeline.defined_of_tables (tables_run_of_asks hasks b t s)
  cases r with
  | load name allowed => exact absurd rfl (hr name allowed)
  | register p tag | descriptor location | mark name => rfl
  | install tr =>
    simp only [run, Pipeline.install]
    split <;> rfl
  | _ => exact absurd rfl hasks

/-- A request keeps the registry consistent. -/
theorem consistent_run {b : Blueprint φ β} {s : Pipeline φ β} (h : s.registry.Consistent)
    (t : FileTree) (r : Request) : (r.run b t s).2.registry.Consistent := by
  rcases registry_run b t r s with ⟨p, tag, -, he⟩ | he
  · rw [he]
    exact h.register t p tag s.tags
  · rw [he]
    exact h

/-- A registered location stays registered, whatever is asked for. -/
theorem contains_run {b : Blueprint φ β} {s : Pipeline φ β} {p : Path}
    (h : s.registry.contains p = true) (t : FileTree) (r : Request) :
    (r.run b t s).2.registry.contains p = true := by
  rcases registry_run b t r s with ⟨q, tag, -, he⟩ | he
  · rw [he]
    exact Registry.contains_register h t q tag s.tags
  · rw [he]
    exact h

/-- A registered origin stays registered. -/
theorem mem_order_run (b : Blueprint φ β) (t : FileTree) (r : Request) {s : Pipeline φ β}
    {o : Origin} (h : o ∈ s.registry.order) : o ∈ (r.run b t s).2.registry.order := by
  rcases registry_run b t r s with ⟨p, tag, -, he⟩ | he
  · rw [he]
    exact Registry.mem_order_of_mem h t p tag s.tags
  · rwa [he]

/-- The first registration of a pipeline. -/
theorem run_register_first {b : Blueprint φ β} {t : FileTree} {p : Path} {o : Origin}
    (h : Origin.ofPath t p = .ok o) (f : φ) (g : β) :
    ((register p none).run b t (Pipeline.ofBlueprint b f g)).2 =
      { Pipeline.ofBlueprint b f g with registry := .only o } := by
  simp only [run, Pipeline.registerOrigin, Registry.register, Registry.originAt, h]
  rfl

end Overlay.Request

namespace Overlay.World

variable {φ β : Type} {b : Blueprint φ β} {w : World φ β} {p : Path}

theorem contains_step (h : w.pipeline.registry.contains p = true) (e : Event) :
    (w.step b e).pipeline.registry.contains p = true := by
  cases e with
  | request r => exact Request.contains_run h w.tree r
  | files t => exact h

/-- A registered location stays registered, whatever happens. -/
theorem contains_run (h : w.pipeline.registry.contains p = true) (es : List Event) :
    (w.run b es).pipeline.registry.contains p = true := by
  induction es generalizing w with
  | nil => exact h
  | cons e es ih =>
    rw [run_cons]
    exact ih (contains_step h e)

theorem consistent_step (h : w.pipeline.registry.Consistent) (e : Event) :
    (w.step b e).pipeline.registry.Consistent := by
  cases e with
  | request r => exact Request.consistent_run h w.tree r
  | files t => exact h

/-- The registry of a pipeline is consistent after every run. -/
theorem consistent_run (b : Blueprint φ β) (t : FileTree) (f : φ) (g : β) (es : List Event) :
    ((World.start b t f g).run b es).pipeline.registry.Consistent :=
  run_induction (P := fun _ w => w.pipeline.registry.Consistent) Registry.consistent_empty
    (fun _ e _ h => consistent_step h e) es

/-- A load changes the pipeline like the load of the dotted name. -/
theorem pipeline_load (b : Blueprint φ β) (w : World φ β) (name : String) (allowed : Bool) :
    (w.step b (.request (.load name allowed))).pipeline =
      (w.pipeline.loadDotted b w.tree (SymbolName.dotted name) allowed).2 :=
  congrArg Prod.snd (Request.run_load b w.tree name allowed w.pipeline)

/-- A location that becomes registered is registered by a request to do so. -/
theorem registration_of_contains_step {e : Event} (h : w.pipeline.registry.contains p = false)
    (h' : (w.step b e).pipeline.registry.contains p = true) :
    ∃ q tag, e = .request (.register q tag) := by
  cases e with
  | files t =>
    rw [show (w.step b (.files t)).pipeline = w.pipeline from rfl, h] at h'
    cases h'
  | request r =>
    rcases Request.registry_run b w.tree r w.pipeline with ⟨q, tag, rfl, -⟩ | he
    · exact ⟨q, tag, rfl⟩
    · rw [show (w.step b (.request r)).pipeline.registry = w.pipeline.registry from he, h] at h'
      cases h'

end Overlay.World
