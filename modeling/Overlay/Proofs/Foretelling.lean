import Overlay.Proofs.Ahead
import Overlay.Proofs.Calls
import Overlay.Proofs.Enumeration

/-!
# Definitions told in advance

A pipeline tells the definition of a symbol, raw or transformed, without defining it. For a name
that is the pipeline's to define, the answer foretells what a load with leave to use the fallback
loader's bytes does: it defines the symbol with these bytes, fails for the same reason, or leaves
the name to the bootstrap loader. The load consults the fallback loader once more than the question
does, so this rests on a fallback loader that answers the same when it is asked again. Who has asked
before gets the same symbol from the load.
-/

namespace Overlay

namespace FallbackLoader

variable {φ : Type}

/-- The state of a fallback loader after it was asked for a resource some times. -/
def asked (l : FallbackLoader φ) (t : FileTree) (resource : String) (f : φ) : Nat → φ
  | 0 => f
  | k + 1 => (l.resolve t resource (l.asked t resource f k)).2

/-- A fallback loader gives the same copy of a resource however often it is asked. -/
def Repeats (l : FallbackLoader φ) (t : FileTree) (resource : String) (f : φ) : Prop :=
  ∀ k, (l.resolve t resource (l.asked t resource f k)).1 = (l.resolve t resource f).1

end FallbackLoader

/-- A search path gives the same copy however often it is asked. -/
theorem SearchPath.repeats {f : SearchPath} (h : f.registry.Consistent) (t : FileTree)
    (resource : String) : loader.Repeats t resource f := by
  intro k
  have hasked : (loader.asked t resource f k).registry = f.registry ∧
      f.lookups.archives.Opens t f.registry.order
        (loader.asked t resource f k).lookups.archives := by
    induction k with
    | zero => exact ⟨rfl, .refl t _ _⟩
    | succ k ih =>
      obtain ⟨hregistry, hopens⟩ := ih
      have hsearch := (loader.asked t resource f k).registry.opens_resolve? t resource
        (loader.asked t resource f k).lookups
      change (SearchPath.resolve t resource _).2.registry = _ ∧
        ArchiveTable.Opens t _ _ (SearchPath.resolve t resource _).2.lookups.archives
      rw [resolve_snd]
      exact ⟨hregistry, hopens.trans (hregistry ▸ hsearch)⟩
  change (SearchPath.resolve t resource _).1 = (SearchPath.resolve t resource f).1
  rw [resolve_eq, resolve_eq, hasked.1, h.resolve?_opened hasked.2]

/-- An error by which a definition is refused: it cannot be read, lies in a registered origin, or is
not accepted by the transformer. -/
def LoadError.Refuses : LoadError → Prop
  | read _ _ _ | shadowed _ _ | transform _ _ => True
  | _ => False

/-- What is described, and what is kept of it, depends on what would be read now. -/
theorem MetadataCache.descriptorFor_congr {t : FileTree} {p : Path} {m : MetadataCache}
    {s s' : LookupState} (h : m.fresh t s'.archives p = m.fresh t s.archives p) :
    (m.descriptorFor t p s').1 = (m.descriptorFor t p s).1 ∧
      (m.descriptorFor t p s').2.1 = (m.descriptorFor t p s).2.1 := by
  rcases m.descriptorFor_cases t p s with ⟨d, hd, he⟩ | ⟨hn, hfst, hsnd, -⟩
  · rw [he, descriptorFor, hd]
    exact ⟨rfl, rfl⟩
  · rcases m.descriptorFor_cases t p s' with ⟨d, hd, -⟩ | ⟨-, hfst', hsnd', -⟩
    · rw [hn] at hd
      cases hd
    · rw [hfst, hfst', hsnd, hsnd', h]
      exact ⟨rfl, rfl⟩

namespace Pipeline

variable {φ β : Type} {b : Blueprint φ β} {t : FileTree} {name : String} {allowed : Bool}
  {s s₁ s₂ s' : Pipeline φ β}

/-- What the bootstrap loader answers for a name. -/
def platformAnswer (b : Blueprint φ β) (t : FileTree) (name : String) (s : Pipeline φ β) :
    Except LoadError Symbol :=
  match (b.bootstrap.loadSymbol t name s.bootstrap).1 with
  | some x => .ok x
  | none => .error (.notFound name)

theorem not_refuses_of_platformAnswer {e : LoadError} (h : s.platformAnswer b t name = .error e) :
    ¬e.Refuses := by
  unfold platformAnswer at h
  split at h
  · cases h
  · obtain rfl := Except.error.inj h
    exact id

/-- A fetch that fails says why the definition is refused. -/
theorem refuses_of_fetch {e : LoadError} (h : (s.fetch b t name allowed).1 = .error e) :
    e.Refuses := by
  have hf := fetches_fetch b t name allowed s
  generalize s.fetch b t name allowed = r at hf h
  cases hf with
  | unreadable found =>
    obtain rfl := Except.error.inj h
    obtain ⟨o, -, cause, rfl⟩ := Registry.error_of_resolveIn (congrArg Prod.fst found)
    exact trivial
  | shadowed =>
    obtain rfl := Except.error.inj h
    exact trivial
  | _ => cases h

/-- So does a transformation that fails. -/
theorem refuses_of_transform {bytes : ByteArray} {e : LoadError}
    (h : (s.transform b name bytes).1 = .error e) : e.Refuses := by
  have ht := transforms_transform b name bytes s
  generalize s.transform b name bytes = r at h ht
  cases ht with
  | failed =>
    obtain rfl := Except.error.inj h
    exact trivial
  | _ => cases h

/-- A pipeline was asked for the definition of a name. -/
structure Queried (b : Blueprint φ β) (t : FileTree) (name : String) (s s' : Pipeline φ β) :
    Prop where
  /-- The tables are the same. -/
  tables_eq : s'.tables = s.tables
  /-- Views of registered origins were opened. -/
  opens : s.lookups.archives.Opens t s.registry.order s'.lookups.archives
  /-- The bootstrap loader was not asked. -/
  bootstrap_eq : s'.bootstrap = s.bootstrap
  /-- The fallback loader was asked for the resource of the name. -/
  asked : ∃ k, s'.fallback =
    b.fallback.asked t (SymbolName.resource name b.config.resourceSuffix) s.fallback k

namespace Queried

theorem refl (b : Blueprint φ β) (t : FileTree) (name : String) (s : Pipeline φ β) :
    Queried b t name s s := ⟨rfl, .refl t _ _, rfl, 0, rfl⟩

/-- Fetching asks for the definition. -/
theorem fetch (h : Queried b t name s s') (allowed : Bool) :
    Queried b t name s (s'.fetch b t name allowed).2 := by
  have htables := tables_fetch b t name allowed s'
  have hopens := opens_fetch b t name allowed s'
  rw [registry_of_tables h.tables_eq] at hopens
  have hloaders : (s'.fetch b t name allowed).2.bootstrap = s'.bootstrap ∧
      ((s'.fetch b t name allowed).2.fallback = s'.fallback ∨
        (s'.fetch b t name allowed).2.fallback = (b.fallback.resolve t
          (SymbolName.resource name b.config.resourceSuffix) s'.fallback).2) := by
    have hf := fetches_fetch b t name allowed s'
    generalize s'.fetch b t name allowed = r at hf ⊢
    cases hf with
    | unreadable found | registered found | unasked found =>
      obtain rfl : _ = _ := congrArg Prod.snd found
      exact ⟨rfl, Or.inl rfl⟩
    | absent found ha copy | shadowed found ha copy | copied found ha copy =>
      obtain rfl : _ = _ := congrArg Prod.snd found
      obtain rfl : _ = _ := congrArg Prod.snd copy
      exact ⟨rfl, Or.inr rfl⟩
  refine ⟨htables.trans h.tables_eq, h.opens.trans hopens, hloaders.1.trans h.bootstrap_eq, ?_⟩
  obtain ⟨k, hk⟩ := h.asked
  rcases hloaders.2 with hsame | hasked
  · exact ⟨k, hsame.trans hk⟩
  · exact ⟨k + 1, by rw [hasked, hk]; rfl⟩

/-- Transforming asks no loader. -/
theorem transform (h : Queried b t name s s') (bytes : ByteArray) :
    Queried b t name s (s'.transform b name bytes).2 := by
  have hsources := sources_transform b name bytes s'
  have hbootstrap : (s'.transform b name bytes).2.bootstrap = s'.bootstrap := by
    have ht := transforms_transform b name bytes s'
    generalize s'.transform b name bytes = r at ht
    cases ht <;> rfl
  refine ⟨(tables_transform b name bytes s').trans h.tables_eq, ?_, hbootstrap.trans h.bootstrap_eq,
    ?_⟩
  · rw [archives_of_sources hsources]
    exact h.opens
  · rw [show (s'.transform b name bytes).2.fallback = s'.fallback from congrArg (·.2.2) hsources]
    exact h.asked

/-- Who asks for the definition of a symbol asks for it by the dotted name. -/
theorem symbolBytes (b : Blueprint φ β) (t : FileTree) (name : String) (transformed : Bool)
    (s : Pipeline φ β) :
    Queried b t (SymbolName.dotted name) s (s.symbolBytes b t name transformed).2 := by
  have hfetched := (refl b t (SymbolName.dotted name) s).fetch true
  unfold Pipeline.symbolBytes
  generalize s.fetch b t (SymbolName.dotted name) true = r at hfetched
  rcases r with ⟨e | _ | f, s₁⟩
  · exact hfetched
  · exact hfetched
  · cases transformed with
    | false => exact hfetched
    | true =>
      have hmade := hfetched.transform f.bytes
      simp only [if_true]
      generalize s₁.transform b (SymbolName.dotted name) f.bytes = r at hmade
      rcases r with ⟨e | bytes, s₂⟩ <;> exact hmade

theorem rawBytes (b : Blueprint φ β) (t : FileTree) (name : String) (s : Pipeline φ β) :
    Queried b t (SymbolName.dotted name) s (s.rawBytes b t name).2 := by
  have hfetched := (refl b t (SymbolName.dotted name) s).fetch true
  unfold Pipeline.rawBytes
  generalize s.fetch b t (SymbolName.dotted name) true = r at hfetched
  rcases r with ⟨e | f, s₁⟩ <;> exact hfetched

variable {f : Fetched}

/-- The same is fetched again, if the fallback loader repeats itself. -/
theorem fetch_fst (h : Queried b t name s s') (hr : s.registry.Consistent)
    (hrepeats : b.fallback.Repeats t (SymbolName.resource name b.config.resourceSuffix) s.fallback)
    (allowed : Bool) : (s'.fetch b t name allowed).1 = (s.fetch b t name allowed).1 := by
  obtain ⟨k, hk⟩ := h.asked
  rw [Pipeline.fetch_fst, Pipeline.fetch_fst, registry_of_tables h.tables_eq,
    hr.resolve?_opened h.opens, hk, hrepeats k]

/-- An origin is described the same. -/
theorem describe (h : Queried b t name s s')
    (hcanonical : ∀ p, f.codeSource = some p → Origin.Canonical s.registry.order p) :
    ((s'.markFetched name f).describe t f.codeSource).1 =
        ((s.markFetched name f).describe t f.codeSource).1 ∧
      ((s'.markFetched name f).describe t f.codeSource).2.metadata =
        ((s.markFetched name f).describe t f.codeSource).2.metadata := by
  have hmetadata (z : Pipeline φ β) : (z.markFetched name f).metadata = z.metadata :=
    congrArg Tables.metadata (tables_markFetched name f z)
  have hsame : (s'.markFetched name f).metadata = (s.markFetched name f).metadata := by
    rw [hmetadata, hmetadata, metadata_of_tables h.tables_eq]
  cases hsource : f.codeSource with
  | none => exact ⟨rfl, hsame⟩
  | some p =>
    have harchives (z : Pipeline φ β) :
        (z.markFetched name f).lookups.archives = z.lookups.archives :=
      archives_of_sources (sources_markFetched name f z)
    have hfresh : s.metadata.fresh t (s'.markFetched name f).lookups.archives p =
        s.metadata.fresh t (s.markFetched name f).lookups.archives p := by
      rw [harchives, harchives]
      exact MetadataCache.fresh_opens h.opens (hcanonical p hsource) s.metadata
    rw [← hmetadata s] at hfresh
    change (MetadataCache.descriptorFor t p _ _).1 = (MetadataCache.descriptorFor t p _ _).1 ∧
      (MetadataCache.descriptorFor t p _ _).2.1 = (MetadataCache.descriptorFor t p _ _).2.1
    rw [hsame]
    exact MetadataCache.descriptorFor_congr hfresh

/-- The same is defined. -/
theorem define (h : Queried b t name s s')
    (hcanonical : ∀ p, f.codeSource = some p → Origin.Canonical s.registry.order p)
    (bytes : ByteArray) :
    (s'.define t name f bytes).1 = (s.define t name f bytes).1 ∧
      (s'.define t name f bytes).2.tables = (s.define t name f bytes).2.tables := by
  obtain ⟨hdescriptor, hmetadata⟩ := h.describe hcanonical
  have hsymbol : s'.newSymbol t name f bytes = s.newSymbol t name f bytes := by
    unfold newSymbol
    rw [hdescriptor]
  have hnamespaces : (s'.noteNamespace name).namespaces = (s.noteNamespace name).namespaces := by
    have htables := tables_noteNamespace name (namespaces_of_tables h.tables_eq)
    exact congrArg Tables.namespaces htables
  have htables : (s'.define t name f bytes).2.tables = (s.define t name f bytes).2.tables := by
    rw [tables_define, tables_define, h.tables_eq, hmetadata, hnamespaces, hsymbol,
      defined_of_tables h.tables_eq,
      provenance_markFetched_congr (provenance_of_tables h.tables_eq)]
  refine ⟨?_, htables⟩
  change ((s'.define t name f bytes).2.defined.get? name).getD (s'.newSymbol t name f bytes) =
    ((s.define t name f bytes).2.defined.get? name).getD (s.newSymbol t name f bytes)
  rw [defined_of_tables htables, hsymbol]

end Queried

/-- A raw definition comes from a path that names a registered origin by its location, if it names
one at all. -/
theorem canonical_of_fetch (hr : s.registry.Consistent) {f : Fetched} {p : Path}
    (h : (s.fetch b t name allowed).1 = .ok (some f)) (hp : f.codeSource = some p) :
    Origin.Canonical s.registry.order p := by
  rcases fetch_eq_some_iff.1 h with ⟨o, r, hfound, rfl⟩ | ⟨-, -, r, -, hshadowed, rfl⟩
  · obtain rfl : o.location = p := Option.some.inj hp
    have ho : o ∈ s.registry.order := Registry.mem_of_resolveIn (Prod.ext hfound rfl)
    intro o' ho' hc
    rw [hr.eq_of_mem ho' ho hc]
  · intro o ho hc
    change r.location.codeSource? t _ = some p at hp
    rw [Registry.isShadowed, hp] at hshadowed
    have hcontains := hr.contains_of_mem ho
    rw [Registry.contains_congr _ hc] at hcontains
    cases hcontains.symm.trans hshadowed

/-- What a load of a name that is the pipeline's to define comes to, with leave to use the fallback
loader's bytes: its answer and the tables that it leaves. -/
def outcome (b : Blueprint φ β) (t : FileTree) (name : String) (s : Pipeline φ β) :
    Except LoadError Symbol × Tables :=
  match (s.fetch b t name true).1 with
  | .error e => (.error e, s.tables)
  | .ok none => (s.platformAnswer b t name, s.tables)
  | .ok (some f) =>
    match (s.transform b name f.bytes).1 with
    | .error e => (.error e, s.tables)
    | .ok bytes => (.ok (s.define t name f bytes).1, (s.define t name f bytes).2.tables)

/-- A name that the fallback loader has no resource for is left to the bootstrap loader. -/
theorem delegate_fst (h : (b.fallback.resolve t
      (SymbolName.resource name b.config.resourceSuffix) s.fallback).1 = none) :
    (s.delegate b t name).1 = s.platformAnswer b t name := by
  have hd := delegates_delegate b t name s
  generalize s.delegate b t name = r at hd ⊢
  cases hd with
  | absent copy =>
    obtain rfl : _ = _ := congrArg Prod.snd copy
    unfold orMissing askBootstrap platformAnswer resolveFallback
    dsimp only
    split <;> rename_i he
    · rw [(Prod.mk.inj he).1]
    · rw [(Prod.mk.inj he).1]
  | shadowed copy | asked copy =>
    have hcopy := congrArg Prod.fst copy
    change (b.fallback.resolve t _ s.fallback).1 = _ at hcopy
    rw [h] at hcopy
    cases hcopy

/-- Where nothing is fetched, the fallback loader has no copy. -/
theorem copy_of_fetch (h : (s.fetch b t name true).1 = .ok none) :
    (b.fallback.resolve t (SymbolName.resource name b.config.resourceSuffix) s.fallback).1 =
      none := by
  rw [fetch_fst] at h
  split at h
  · cases h
  · cases h
  · rw [if_pos rfl] at h
    split at h
    · assumption
    · split at h <;> cases h

/-- A pure transformer answers the same, whatever its calls were. -/
theorem transform_fst_of_isPure (h : s'.transformer = s.transformer)
    (hpure : ∀ tr, s.transformer = some tr → tr.IsPure) (b : Blueprint φ β) (name : String)
    (bytes : ByteArray) : (s'.transform b name bytes).1 = (s.transform b name bytes).1 := by
  unfold Pipeline.transform
  rw [h]
  cases htr : s.transformer with
  | none => rfl
  | some tr =>
    dsimp only
    rw [hpure tr htr s'.transformed, hpure tr htr s.transformed]
    split
    · split <;> rfl
    · rfl

namespace Queried

/-- A name that nothing is fetched for is left to the bootstrap loader: the fallback loader, asked
once more, has no copy either. -/
theorem delegate_fst (h : Queried b t name s s')
    (hrepeats : b.fallback.Repeats t (SymbolName.resource name b.config.resourceSuffix) s.fallback)
    (unfetched : (s.fetch b t name true).1 = .ok none) :
    (s'.delegate b t name).1 = s.platformAnswer b t name := by
  obtain ⟨k, hk⟩ := h.asked
  have habsent : (b.fallback.resolve t (SymbolName.resource name b.config.resourceSuffix)
      s'.fallback).1 = none := by
    rw [hk, hrepeats k]
    exact copy_of_fetch unfetched
  rw [Pipeline.delegate_fst habsent, platformAnswer, platformAnswer, h.bootstrap_eq]

/-- Before and after the pipeline was asked, a load comes to the same, if the transformer answers the
same. -/
theorem loadDotted (h : Queried b t name s s') (hr : s.registry.Consistent)
    (hname : s.Definable b name)
    (hrepeats : b.fallback.Repeats t (SymbolName.resource name b.config.resourceSuffix) s.fallback)
    (hanswers : ∀ bytes, (s'.transform b name bytes).1 = (s.transform b name bytes).1) :
    ((s'.loadDotted b t name true).1, (s'.loadDotted b t name true).2.tables) =
      s.outcome b t name := by
  have hfetch := h.fetch_fst hr hrepeats true
  have hafter := h.fetch true
  have hundefined : s'.defined.get? name = none := by
    rw [defined_of_tables h.tables_eq]
    exact hname.undefined
  have hmakes {r : Except LoadError (Option Fetched)} {s₁ : Pipeline φ β}
      (fetched : s'.fetch b t name true = (r, s₁)) (bytes : ByteArray) :
      (s₁.transform b name bytes).1 = (s.transform b name bytes).1 := by
    have hlog := transformed_fetch b t name true s'
    rw [fetched] at hlog
    rw [transform_fst_congr (transformer_of_tables (tables_of_fetch fetched)) hlog, hanswers]
  unfold outcome
  rw [← hfetch]
  have hl := loads_loadDotted b t name true s'
  generalize s'.loadDotted b t name true = r at hl ⊢
  cases hl with
  | present hx =>
    rw [hundefined] at hx
    cases hx
  | support _ hs =>
    rw [hname.not_support] at hs
    cases hs
  | bootstrap _ _ hb =>
    rw [hname.not_bootstrap] at hb
    cases hb
  | unfetched _ _ _ fetched =>
    rw [Bool.true_or] at fetched
    rw [fetched] at hafter ⊢
    exact congrArg (Prod.mk _) hafter.tables_eq
  | @untransformed _ _ _ f e s₁ s₂ fetched transformed =>
    rw [Bool.true_or] at fetched
    have hanswer := hmakes fetched f.bytes
    rw [fetched] at hafter ⊢
    have hmade := hafter.transform f.bytes
    rw [transformed] at hmade hanswer
    dsimp only
    rw [← hanswer]
    exact congrArg (Prod.mk _) hmade.tables_eq
  | @defines _ _ _ f bytes s₁ s₂ fetched transformed =>
    rw [Bool.true_or] at fetched
    have hf : (s.fetch b t name true).1 = .ok (some f) := by rw [← hfetch, fetched]
    have hanswer := hmakes fetched f.bytes
    rw [fetched] at hafter ⊢
    have hmade := hafter.transform f.bytes
    rw [transformed] at hmade hanswer
    obtain ⟨hsymbol, htables⟩ := hmade.define (fun _ => canonical_of_fetch hr hf) bytes
    dsimp only
    rw [← hanswer]
    dsimp only
    rw [hsymbol, htables]
  | @delegated _ _ _ s₁ fetched =>
    rw [Bool.true_or] at fetched
    have hf : (s.fetch b t name true).1 = .ok none := by rw [← hfetch, fetched]
    rw [fetched] at hafter ⊢
    dsimp only
    rw [hafter.delegate_fst hrepeats hf, tables_delegate, hafter.tables_eq]

end Queried

/-- What the definition of a symbol is answered to be, by what is fetched for it. -/
theorem symbolBytes_fst (b : Blueprint φ β) (t : FileTree) (name : String) (s : Pipeline φ β) :
    (s.symbolBytes b t name true).1 =
      match (s.fetch b t (SymbolName.dotted name) true).1 with
      | .error e => .error e
      | .ok none => .ok none
      | .ok (some f) => (s.transform b (SymbolName.dotted name) f.bytes).1.map some := by
  have hsome {f : Fetched} (h : (s.fetch b t (SymbolName.dotted name) true).1 = .ok (some f)) :=
    symbolBytes_of_fetch h
  cases hf : (s.fetch b t (SymbolName.dotted name) true).1 with
  | error e =>
    unfold symbolBytes
    generalize s.fetch b t (SymbolName.dotted name) true = r at hf
    obtain ⟨_, s₁⟩ := r
    obtain rfl := hf
    rfl
  | ok found =>
    cases found with
    | none =>
      unfold symbolBytes
      generalize s.fetch b t (SymbolName.dotted name) true = r at hf
      obtain ⟨_, s₁⟩ := r
      obtain rfl := hf
      rfl
    | some f => exact hsome hf

theorem rawBytes_fst (b : Blueprint φ β) (t : FileTree) (name : String) (s : Pipeline φ β) :
    (s.rawBytes b t name).1 =
      (s.fetch b t (SymbolName.dotted name) true).1.map (Option.map (·.bytes)) := by
  unfold rawBytes
  generalize s.fetch b t (SymbolName.dotted name) true = r
  rcases r with ⟨e | f, s₁⟩ <;> rfl

/-- An answer about the definition of a name foretells what a load of it does. -/
structure Foretells (b : Blueprint φ β) (t : FileTree) (name : String) (s : Pipeline φ β)
    (answer : Except LoadError (Option ByteArray)) : Prop where
  /-- It gives bytes exactly if the load defines a symbol with these bytes. -/
  defines_iff : ∀ bytes, answer = .ok (some bytes) ↔
    ∃ x, (s.loadWithFallback b t name).1 = .ok x ∧
      (s.loadWithFallback b t name).2.defined.get? (SymbolName.dotted name) = some x ∧
        x.bytes = bytes
  /-- It is an error exactly if the load refuses the definition with this error. -/
  fails_iff : ∀ e, answer = .error e ↔ (s.loadWithFallback b t name).1 = .error e ∧ e.Refuses
  /-- It gives nothing exactly if the load defines nothing and answers as the bootstrap loader. -/
  passes_iff : answer = .ok none ↔ (s.loadWithFallback b t name).2.defined = s.defined ∧
    (s.loadWithFallback b t name).1 = s.platformAnswer b t (SymbolName.dotted name)

namespace Foretells

theorem of_error {e : LoadError} (hanswer : (s.loadWithFallback b t name).1 = .error e)
    (refuses : e.Refuses) : Foretells b t name s (.error e) where
  defines_iff bytes := by simp [hanswer]
  fails_iff e' := by
    rw [hanswer]
    constructor
    · intro he
      obtain rfl := Except.error.inj he
      exact ⟨rfl, refuses⟩
    · rintro ⟨he, -⟩
      rw [Except.error.inj he]
  passes_iff := by
    constructor
    · intro he
      cases he
    · intro h
      rw [hanswer] at h
      exact absurd refuses (not_refuses_of_platformAnswer h.2.symm)

theorem of_none (undefined : s.defined.get? (SymbolName.dotted name) = none)
    (hanswer : (s.loadWithFallback b t name).1 = s.platformAnswer b t (SymbolName.dotted name))
    (hdefined : (s.loadWithFallback b t name).2.defined = s.defined) :
    Foretells b t name s (.ok none) where
  defines_iff bytes := by simp [hdefined, undefined]
  fails_iff e := by
    constructor
    · intro he
      cases he
    · rintro ⟨he, refuses⟩
      exact absurd refuses (not_refuses_of_platformAnswer (hanswer.symm.trans he))
  passes_iff := ⟨fun _ => ⟨hdefined, hanswer⟩, fun _ => rfl⟩

theorem of_some {x : Symbol} (undefined : s.defined.get? (SymbolName.dotted name) = none)
    (hanswer : (s.loadWithFallback b t name).1 = .ok x)
    (hdefined : (s.loadWithFallback b t name).2.defined.get? (SymbolName.dotted name) = some x) :
    Foretells b t name s (.ok (some x.bytes)) where
  defines_iff bytes := by
    rw [hanswer, hdefined]
    constructor
    · intro he
      exact ⟨x, rfl, rfl, Option.some.inj (Except.ok.inj he)⟩
    · rintro ⟨_, -, hx, rfl⟩
      obtain rfl := Option.some.inj hx
      rfl
  fails_iff e := by simp [hanswer]
  passes_iff := by
    refine ⟨nofun, fun h => ?_⟩
    rw [h.1, undefined] at hdefined
    cases hdefined

end Foretells

/-- The transformed definition foretells the load. -/
theorem foretells_symbolBytes (hr : s.registry.Consistent)
    (hname : s.Definable b (SymbolName.dotted name))
    (hrepeats : b.fallback.Repeats t
      (SymbolName.resource (SymbolName.dotted name) b.config.resourceSuffix) s.fallback) :
    Foretells b t name s (s.symbolBytes b t name true).1 := by
  have hload := (Queried.refl b t (SymbolName.dotted name) s).loadDotted hr hname hrepeats
    fun _ => rfl
  have hanswer := congrArg Prod.fst hload
  have htables := congrArg Prod.snd hload
  rw [symbolBytes_fst]
  unfold outcome at hanswer htables
  cases hf : (s.fetch b t (SymbolName.dotted name) true).1 with
  | error e =>
    rw [hf] at hanswer
    exact .of_error hanswer (refuses_of_fetch hf)
  | ok found =>
    rw [hf] at hanswer htables
    cases found with
    | none => exact .of_none hname.undefined hanswer (defined_of_tables htables)
    | some f =>
      dsimp only at hanswer htables ⊢
      cases hmade : (s.transform b (SymbolName.dotted name) f.bytes).1 with
      | error e =>
        rw [hmade] at hanswer
        exact .of_error hanswer (refuses_of_transform hmade)
      | ok bytes =>
        rw [hmade] at hanswer htables
        dsimp only at hanswer htables
        obtain ⟨hsymbol, hentered⟩ := define_of_undefined hname.undefined t f bytes
        rw [hsymbol] at hanswer
        have hdefined := (defined_of_tables htables).trans hentered
        have hkept := congrArg (Table.get? · (SymbolName.dotted name)) hdefined
        exact .of_some (x := s.newSymbol t (SymbolName.dotted name) f bytes) hname.undefined hanswer
          (hkept.trans (Table.get?_insert_self _ _ _))

/-- Without the transformer, the raw definition is the transformed one. -/
theorem rawBytes_fst_eq (b : Blueprint φ β) (t : FileTree) (name : String) (s : Pipeline φ β) :
    (s.rawBytes b t name).1 = ({ s with transformer := none }.symbolBytes b t name true).1 := by
  have hfetch : ({ s with transformer := none }.fetch b t (SymbolName.dotted name) true).1 =
      (s.fetch b t (SymbolName.dotted name) true).1 := by
    rw [fetch_fst, fetch_fst]
  rw [rawBytes_fst, symbolBytes_fst, hfetch]
  rcases (s.fetch b t (SymbolName.dotted name) true).1 with e | _ | f <;> rfl

/-- The pipeline tells in advance what a load of a name does. -/
structure Foretold (b : Blueprint φ β) (t : FileTree) (name : String) (s : Pipeline φ β) :
    Prop where
  /-- The transformed definition foretells the load. -/
  transformed : Foretells b t name s (s.symbolBytes b t name true).1
  /-- The raw definition foretells the load that no transformer would see. -/
  raw : Foretells b t name { s with transformer := none } (s.rawBytes b t name).1
  /-- The definition that is asked for untransformed is the raw one. -/
  untransformed_eq : (s.symbolBytes b t name false).1 = (s.rawBytes b t name).1
  /-- The transformed definition is what the transformer makes of the raw one. -/
  transformed_eq : (s.symbolBytes b t name true).1 =
    match (s.rawBytes b t name).1 with
    | .ok (some bytes) => (s.transform b (SymbolName.dotted name) bytes).1.map some
    | answer => answer
  /-- A load does the same after one of these questions: it gives the same answer and leaves the
  same tables. A transformer that was asked must be pure for that. -/
  unaffected : ∀ q ∈ [Request.symbolBytes name true, .symbolBytes name false, .rawBytes name],
    (q = .symbolBytes name true → ∀ tr, s.transformer = some tr → tr.IsPure) →
    let s' := (q.run b t s).2
    (s'.loadWithFallback b t name).1 = (s.loadWithFallback b t name).1 ∧
      (s'.loadWithFallback b t name).2.tables = (s.loadWithFallback b t name).2.tables

theorem foretold (hr : s.registry.Consistent) (hname : s.Definable b (SymbolName.dotted name))
    (hrepeats : b.fallback.Repeats t
      (SymbolName.resource (SymbolName.dotted name) b.config.resourceSuffix) s.fallback) :
    Foretold b t name s where
  transformed := foretells_symbolBytes hr hname hrepeats
  raw := by
    rw [rawBytes_fst_eq]
    exact foretells_symbolBytes (s := { s with transformer := none }) hr
      ⟨hname.undefined, hname.not_support, hname.not_bootstrap⟩ hrepeats
  untransformed_eq := by
    unfold symbolBytes rawBytes
    generalize s.fetch b t (SymbolName.dotted name) true = r
    rcases r with ⟨e | _ | f, s₁⟩ <;> rfl
  transformed_eq := by
    rw [symbolBytes_fst, rawBytes_fst]
    rcases (s.fetch b t (SymbolName.dotted name) true).1 with e | _ | f <;> rfl
  unaffected q hq hpure := by
    have hasked : Queried b t (SymbolName.dotted name) s (q.run b t s).2 ∧
        (q = .symbolBytes name true ∨ q.call? b t s = none) := by
      simp only [List.mem_cons, List.not_mem_nil, or_false] at hq
      rcases hq with rfl | rfl | rfl
      · exact ⟨.symbolBytes b t name true s, Or.inl rfl⟩
      · exact ⟨.symbolBytes b t name false s, Or.inr rfl⟩
      · exact ⟨.rawBytes b t name s, Or.inr rfl⟩
    obtain ⟨hqueried, hcall⟩ := hasked
    have hslot := transformer_of_tables hqueried.tables_eq
    have hanswers : ∀ bytes, ((q.run b t s).2.transform b (SymbolName.dotted name) bytes).1 =
        (s.transform b (SymbolName.dotted name) bytes).1 := by
      rcases hcall with htransformed | hnone
      · exact transform_fst_of_isPure hslot (hpure htransformed) b _
      · have hlog := Request.transformed_run b t q s
        rw [hnone] at hlog
        exact transform_fst_congr hslot (hlog.trans (List.append_nil _)) b _
    have hsame := (hqueried.loadDotted hr hname hrepeats hanswers).trans
      ((Queried.refl b t (SymbolName.dotted name) s).loadDotted hr hname hrepeats
        fun _ => rfl).symm
    exact Prod.mk.inj hsame

end Pipeline

namespace Ensemble

variable {φ β : Type}

/-- After every run, the pipeline tells in advance what a load of a name does that is its own to
define, if the fallback loader answers the same when it is asked again. -/
theorem foretold_run (b : Blueprint φ β) (t : FileTree) (f : φ) (g : β) (os : List Occurrence)
    (name : String) :
    let y := (start b t f g).run b os
    y.pipeline.Definable b (SymbolName.dotted name) →
    b.fallback.Repeats y.tree
      (SymbolName.resource (SymbolName.dotted name) b.config.resourceSuffix)
      y.pipeline.fallback →
    y.pipeline.Foretold b y.tree name := by
  intro y hname hrepeats
  exact Pipeline.foretold (consistent_run b t f g os .pipeline _ rfl) hname hrepeats

/-- A name with a copy on the search path, and a pure transformer that is installed. -/
theorem foretold_copy :
    let t : FileTree := ⟨[(["lib"], .directory), (["lib", "A.sym"], .file ⟨#[49]⟩)], []⟩
    let b := Blueprint.overSearchPath {} BootstrapLoader.none
    let tr := Transformer.stateless fun _ bytes => .ok (bytes.push 50)
    let os : List Occurrence := [.parent (.request (.install tr))]
    let resource := SymbolName.resource (SymbolName.dotted "A") b.config.resourceSuffix
    ∃ f, SearchPath.ofPaths t [⟨"/lib"⟩] ".sym" = .ok f ∧
      let y := (start b t f ()).run b os
      y.pipeline.Definable b (SymbolName.dotted "A") ∧
        b.fallback.Repeats y.tree resource y.pipeline.fallback ∧
        y.pipeline.Foretold b y.tree "A" ∧
        (y.pipeline.symbolBytes b y.tree "A" true).1 = .ok (some ⟨#[49, 50]⟩) ∧
        ((y.pipeline.symbolBytes b y.tree "A" true).2.loadWithFallback b y.tree "A").1 =
          (y.pipeline.loadWithFallback b y.tree "A").1 := by
  intro t b tr os resource
  have hforetold (f : SearchPath) (hf : SearchPath.ofPaths t [⟨"/lib"⟩] ".sym" = .ok f) :
      let y := (start b t f ()).run b os
      y.pipeline.Definable b (SymbolName.dotted "A") ∧
        b.fallback.Repeats y.tree resource y.pipeline.fallback ∧
        y.pipeline.Foretold b y.tree "A" := by
    intro y
    have hname : y.pipeline.Definable b (SymbolName.dotted "A") := ⟨rfl, by decide, by decide⟩
    have hrepeats : b.fallback.Repeats y.tree resource y.pipeline.fallback :=
      SearchPath.repeats (fallback_consistent_run hf t () os) y.tree resource
    exact ⟨hname, hrepeats, foretold_run b t f () os "A" hname hrepeats⟩
  obtain ⟨f, hf, hbytes⟩ : ∃ f, SearchPath.ofPaths t [⟨"/lib"⟩] ".sym" = .ok f ∧
      (((start b t f ()).run b os).pipeline.symbolBytes b t "A" true).1 =
        .ok (some ⟨#[49, 50]⟩) := ⟨_, rfl, by decide +kernel⟩
  obtain ⟨hname, hrepeats, htold⟩ := hforetold f hf
  have hpure : ∀ tr', ((start b t f ()).run b os).pipeline.transformer = some tr' →
      tr'.IsPure := by
    intro tr' htr'
    obtain rfl : tr = tr' := Option.some.inj htr'
    exact Transformer.isPure_stateless _
  have hunaffected := htold.unaffected (.symbolBytes "A" true) (by simp) fun _ => hpure
  exact ⟨f, hf, hname, hrepeats, htold, hbytes, hunaffected.1⟩

end Ensemble

end Overlay
