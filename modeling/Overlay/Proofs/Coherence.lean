import Overlay.Proofs.Loading
import Overlay.Proofs.Registration

/-!
# Coherent tables

The tables of a pipeline are filled at different points of a load: a name is marked, its origin is
described, its namespace is noted and its symbol is entered, and many loads end before that. In
every state that a run reaches the tables agree with each other all the same.
-/

namespace Overlay.Pipeline

variable {φ β : Type}

/-- The other tables bear out the entry of a name in the table of definitions. -/
structure Vouches (b : Blueprint φ β) (s : Pipeline φ β) (name : String) (x : Symbol) : Prop where
  /-- The name is dotted. -/
  slashless : '/' ∉ name.toList
  /-- The name is no support name. -/
  not_support : b.config.isSupport name = false
  /-- The name is no bootstrap name. -/
  not_bootstrap : b.config.isBootstrap name = false
  /-- The symbol has the name it is entered under. -/
  name_eq : x.name = name
  /-- The layered loader defined the symbol. -/
  definedBy : x.definedBy = .layered ∨ x.definedBy = .layeredFromFallback
  /-- A symbol from a registered origin names that origin. -/
  registered : x.definedBy = .layered → ∃ p, x.codeSource = some p ∧ s.registry.contains p = true
  /-- The descriptor of a symbol with an origin is the one that is kept for the origin. -/
  described : ∀ p, x.codeSource = some p → s.metadata.get? p = some x.descriptor
  /-- The descriptor of a symbol without an origin is empty. -/
  undescribed : x.codeSource = none → x.descriptor = Descriptor.empty

/-- The tables of a pipeline agree, when the names in `marks` were marked from outside. -/
structure Coherent (b : Blueprint φ β) (marks : List String) (s : Pipeline φ β) : Prop where
  /-- Every definition is borne out. -/
  vouched : ∀ name x, s.defined.get? name = some x → Vouches b s name x
  /-- The marks are those from outside and the names defined from the fallback loader's bytes. -/
  isMarked_iff : ∀ name, s.provenance.isMarked name = true ↔ name ∈ marks ∨
    ∃ x, s.defined.get? name = some x ∧ x.definedBy = .layeredFromFallback
  /-- The namespaces are those of the defined names. -/
  mem_namespaces_iff : ∀ ns, ns ∈ s.definedNamespaces ↔
    ∃ name x, s.defined.get? name = some x ∧ SymbolName.namespace? name = some ns

variable {b : Blueprint φ β} {marks : List String} {s s' : Pipeline φ β}

/-- More origins and more descriptors still bear out an entry. -/
theorem Vouches.mono {name : String} {x : Symbol} (h : Vouches b s name x)
    (hr : ∀ p, s.registry.contains p = true → s'.registry.contains p = true)
    (hm : ∀ p d, s.metadata.get? p = some d → s'.metadata.get? p = some d) :
    Vouches b s' name x where
  slashless := h.slashless
  not_support := h.not_support
  not_bootstrap := h.not_bootstrap
  name_eq := h.name_eq
  definedBy := h.definedBy
  registered hl := by
    obtain ⟨p, hp, hc⟩ := h.registered hl
    exact ⟨p, hp, hr p hc⟩
  described p hp := hm p _ (h.described p hp)
  undescribed := h.undescribed

/-- Tables stay coherent when only origins and descriptors are added. -/
theorem Coherent.mono (h : Coherent b marks s) (hd : s'.defined = s.defined)
    (hp : s'.provenance = s.provenance) (hn : s'.namespaces = s.namespaces)
    (hr : ∀ p, s.registry.contains p = true → s'.registry.contains p = true)
    (hm : ∀ p d, s.metadata.get? p = some d → s'.metadata.get? p = some d) :
    Coherent b marks s' where
  vouched name x hx := by
    rw [hd] at hx
    exact (h.vouched name x hx).mono hr hm
  isMarked_iff name := by
    rw [hp, hd]
    exact h.isMarked_iff name
  mem_namespaces_iff ns := by
    rw [definedNamespaces, hn, hd]
    exact h.mem_namespaces_iff ns

/-- Whatever leaves the tables alone keeps them coherent. -/
theorem Coherent.of_tables (h : Coherent b marks s) (ht : s'.tables = s.tables) :
    Coherent b marks s' := by
  apply h.mono (defined_of_tables ht) (provenance_of_tables ht) (namespaces_of_tables ht)
  · intro p hp
    rw [registry_of_tables ht]
    exact hp
  · intro p d hd
    rw [metadata_of_tables ht]
    exact hd

/-- A new pipeline is coherent. -/
theorem coherent_ofBlueprint (b : Blueprint φ β) (f : φ) (g : β) :
    Coherent b [] (ofBlueprint b f g) where
  vouched name x hx := by simp [ofBlueprint] at hx
  isMarked_iff name := by simp [ofBlueprint]
  mem_namespaces_iff ns := by simp [ofBlueprint, definedNamespaces]

/-- Marking a name from outside adds it to the marks. -/
theorem Coherent.mark (h : Coherent b marks s) (name : String) :
    Coherent b (marks ++ [name]) (s.mark name) where
  vouched n x hx := (h.vouched n x hx).mono (fun _ hp => hp) (fun _ _ hd => hd)
  isMarked_iff n := by
    change (s.provenance.mark name).isMarked n = true ↔ _
    rw [Provenance.isMarked_mark, h.isMarked_iff, List.mem_append, List.mem_singleton]
    constructor
    · rintro (hn | hn | hx)
      · exact Or.inl (Or.inr hn)
      · exact Or.inl (Or.inl hn)
      · exact Or.inr hx
    · rintro ((hn | hn) | hx)
      · exact Or.inr (Or.inl hn)
      · exact Or.inl hn
      · exact Or.inr (Or.inr hx)
  mem_namespaces_iff := h.mem_namespaces_iff

section Define

theorem mem_noteNamespace (name ns : String) (s : Pipeline φ β) :
    ns ∈ (s.noteNamespace name).namespaces ↔
      ns ∈ s.namespaces ∨ SymbolName.namespace? name = some ns := by
  unfold noteNamespace
  cases hn : SymbolName.namespace? name with
  | none => simp
  | some own =>
    by_cases hc : s.namespaces.contains own = true
    · simp only [hc, if_true, Option.some.injEq]
      constructor
      · exact Or.inl
      · rintro (h | rfl)
        · exact h
        · exact List.contains_iff_mem.1 hc
    · simp only [hc, Option.some.injEq]
      rw [if_neg (by simp), List.mem_cons, or_comm, eq_comm (a := own)]

/-- A kept descriptor stays when an origin is described. -/
theorem get?_describe_of_some {p : Path} {d : Descriptor} (h : s.metadata.get? p = some d)
    (t : FileTree) (source : Option Path) :
    (s.describe t source).2.metadata.get? p = some d := by
  cases source with
  | none => exact h
  | some location => exact MetadataCache.get?_descriptorFor_of_some t location s.lookups h

/-- The descriptor that an origin is given is the one that is kept for it. -/
theorem get?_describe_self (t : FileTree) (p : Path) (s : Pipeline φ β) :
    (s.describe t (some p)).2.metadata.get? p = some (s.describe t (some p)).1 :=
  MetadataCache.get?_descriptorFor_self t p s.metadata s.lookups

theorem isMarked_markFetched (name other : String) (f : Fetched) (s : Pipeline φ β) :
    (s.markFetched name f).provenance.isMarked other = true ↔
      (other = name ∧ f.viaFallback = true) ∨ s.provenance.isMarked other = true := by
  unfold markFetched
  split
  · rename_i hv
    rw [hv]
    change (s.provenance.mark name).isMarked other = true ↔ _
    simp [Provenance.isMarked_mark]
  · rename_i hv
    simp [hv]

/-- The other tables bear out a new entry. -/
theorem vouches_define (t : FileTree) {name : String} {f : Fetched} (bytes : ByteArray)
    (slashless : '/' ∉ name.toList) (hs : b.config.isSupport name = false)
    (hb : b.config.isBootstrap name = false)
    (hf : f.viaFallback = false → ∃ p, f.codeSource = some p ∧ s.registry.contains p = true) :
    Vouches b (s.define t name f bytes).2 name (s.newSymbol t name f bytes) := by
  have ht := tables_define t name f bytes s
  refine ⟨slashless, hs, hb, rfl, ?_, ?_, ?_, ?_⟩
  · cases hv : f.viaFallback <;> simp [newSymbol, hv]
  · intro hl
    have hv : f.viaFallback = false := by
      cases hv : f.viaFallback with
      | false => rfl
      | true => simp [newSymbol, hv] at hl
    obtain ⟨p, hp, hc⟩ := hf hv
    refine ⟨p, hp, ?_⟩
    rw [show (s.define t name f bytes).2.registry = s.registry from congrArg Tables.registry ht]
    exact hc
  · intro p hp
    have hp' : f.codeSource = some p := hp
    rw [show (s.define t name f bytes).2.metadata = _ from congrArg Tables.metadata ht]
    simp only [newSymbol, hp']
    exact get?_describe_self t p _
  · intro hn
    have hn' : f.codeSource = none := hn
    simp only [newSymbol, hn']
    rfl

/-- Defining an undefined name keeps the tables coherent. -/
theorem Coherent.define (h : Coherent b marks s) (t : FileTree) {name : String} {f : Fetched}
    (bytes : ByteArray) (undefined : s.defined.get? name = none)
    (slashless : '/' ∉ name.toList) (hs : b.config.isSupport name = false)
    (hb : b.config.isBootstrap name = false)
    (hf : f.viaFallback = false → ∃ p, f.codeSource = some p ∧ s.registry.contains p = true) :
    Coherent b marks (s.define t name f bytes).2 := by
  have hnew := vouches_define t bytes slashless hs hb hf
  have ht := tables_define t name f bytes s
  have hdef : (s.define t name f bytes).2.defined =
      s.defined.insert name (s.newSymbol t name f bytes) :=
    (congrArg Tables.defined ht).trans (Table.insertIfAbsent_of_none undefined _)
  have hget (n : String) : (s.define t name f bytes).2.defined.get? n =
      if n = name then some (s.newSymbol t name f bytes) else s.defined.get? n := by
    rw [hdef, Table.get?_insert]
  have hmeta : (s.define t name f bytes).2.metadata =
      ((s.markFetched name f).describe t f.codeSource).2.metadata := congrArg Tables.metadata ht
  have hkept (p : Path) (d : Descriptor) (hd : s.metadata.get? p = some d) :
      (s.define t name f bytes).2.metadata.get? p = some d := by
    rw [hmeta]
    have hm : (s.markFetched name f).metadata = s.metadata :=
      congrArg Tables.metadata (tables_markFetched name f s)
    exact get?_describe_of_some (by rw [hm]; exact hd) t f.codeSource
  constructor
  case vouched =>
    intro n x hx
    rw [hget] at hx
    by_cases hn : n = name
    · rw [if_pos hn, Option.some.injEq] at hx
      rw [hn, ← hx]
      exact hnew
    · rw [if_neg hn] at hx
      refine (h.vouched n x hx).mono ?_ hkept
      intro p hp
      rw [show (s.define t name f bytes).2.registry = s.registry from congrArg Tables.registry ht]
      exact hp
  case isMarked_iff =>
    intro n
    rw [show (s.define t name f bytes).2.provenance = _ from congrArg Tables.provenance ht,
      isMarked_markFetched, h.isMarked_iff]
    by_cases hn : n = name
    · subst hn
      cases hv : f.viaFallback <;> simp [hget, undefined, newSymbol, hv]
    · simp [hget, hn]
  case mem_namespaces_iff =>
    intro ns
    rw [definedNamespaces, List.mem_mergeSort,
      show (s.define t name f bytes).2.namespaces = _ from congrArg Tables.namespaces ht,
      mem_noteNamespace]
    have hold := h.mem_namespaces_iff ns
    rw [definedNamespaces, List.mem_mergeSort] at hold
    rw [hold]
    constructor
    · rintro (⟨n, x, hx, hns⟩ | hns)
      · have hne : n ≠ name := by
          rintro rfl
          rw [undefined] at hx
          cases hx
        exact ⟨n, x, by rw [hget, if_neg hne]; exact hx, hns⟩
      · exact ⟨name, _, by rw [hget, if_pos rfl], hns⟩
    · rintro ⟨n, x, hx, hns⟩
      rw [hget] at hx
      by_cases hn : n = name
      · exact Or.inr (hn ▸ hns)
      · rw [if_neg hn] at hx
        exact Or.inl ⟨n, x, hx, hns⟩

end Define

/-- A raw definition that the fallback loader did not supply comes from a registered origin. -/
theorem registered_of_fetch (hr : s.registry.Consistent) {t : FileTree} {name : String}
    {allowed : Bool} {f : Fetched} {s₁ : Pipeline φ β}
    (h : s.fetch b t name allowed = (.ok (some f), s₁)) (hv : f.viaFallback = false) :
    ∃ p, f.codeSource = some p ∧ s.registry.contains p = true := by
  have hcases := fetches_fetch b t name allowed s
  rw [h] at hcases
  cases hcases with
  | @registered o r _ found =>
    have hm := congrArg Prod.fst found
    have ho := Registry.mem_of_resolveIn (Prod.ext hm rfl)
    exact ⟨o.location, rfl, hr.contains_of_mem ho⟩
  | copied found ha copy hs => cases hv

/-- Loading a dotted name keeps the tables coherent, however it ends. -/
theorem Coherent.loadDotted (h : Coherent b marks s) (hr : s.registry.Consistent) (t : FileTree)
    {name : String} (slashless : '/' ∉ name.toList) (allowed : Bool) :
    Coherent b marks (s.loadDotted b t name allowed).2 := by
  have hl := loads_loadDotted b t name allowed s
  generalize s.loadDotted b t name allowed = r at hl
  cases hl with
  | present hx => exact h
  | support undefined hs => exact h.of_tables (by simp)
  | bootstrap undefined hs hb => exact h.of_tables (by simp)
  | unfetched undefined hs hb fetched => exact h.of_tables (tables_of_fetch fetched)
  | untransformed undefined hs hb fetched transformed =>
    exact h.of_tables ((tables_of_transform transformed).trans (tables_of_fetch fetched))
  | @defines undefined hs hb f bytes s₁ s₂ fetched transformed =>
    have ht : s₂.tables = s.tables :=
      (tables_of_transform transformed).trans (tables_of_fetch fetched)
    refine (h.of_tables ht).define t bytes ?_ slashless hs hb ?_
    · rw [defined_of_tables ht]
      exact undefined
    · intro hv
      rw [registry_of_tables ht]
      exact registered_of_fetch hr fetched hv
  | delegated undefined hs hb fetched =>
    exact h.of_tables ((tables_delegate b t name _).trans (tables_of_fetch fetched))

/-- A request that marks nothing by itself keeps the tables coherent. -/
theorem Coherent.request (h : Coherent b marks s) (hr : s.registry.Consistent) (t : FileTree)
    {r : Request} (hm : r.marked? = none) : Coherent b marks (r.run b t s).2 := by
  cases r with
  | register p tag =>
    have hc (q : Path) (hq : s.registry.contains q = true) :=
      Registry.contains_register hq t p tag s.tags
    exact h.mono rfl rfl rfl hc (fun _ _ hd => hd)
  | install tr =>
    simp only [Request.run, install]
    split
    · exact h
    · exact h.mono rfl rfl rfl (fun _ hp => hp) (fun _ _ hd => hd)
  | load name allowed =>
    rw [Request.run_load]
    exact h.loadDotted hr t (SymbolName.slash_not_mem_dotted name) allowed
  | descriptor location =>
    have hd (p : Path) (d : Descriptor) (hd : s.metadata.get? p = some d) :=
      get?_describe_of_some hd t (some location)
    exact h.mono rfl rfl rfl (fun _ hp => hp) hd
  | isLoaded name => exact h
  | resource name | resourceBytes name | resources name | rawBytes name =>
    exact h.of_tables (by simp [Request.run])
  | symbolBytes name transformed => exact h.of_tables (by simp [Request.run])
  | mark name => cases hm

/-- An event keeps the tables coherent; a mark from outside is added to the marks. -/
theorem Coherent.step {w : World φ β} (h : Coherent b marks w.pipeline)
    (hr : w.pipeline.registry.Consistent) (e : Event) :
    Coherent b (marks ++ e.marked?.toList) (w.step b e).pipeline := by
  cases hm : e.marked? with
  | some name =>
    cases e with
    | files t => cases hm
    | request r =>
      cases r with
      | mark n =>
        obtain rfl : n = name := Option.some.inj hm
        exact h.mark n
      | _ => cases hm
  | none =>
    rw [Option.toList_none, List.append_nil]
    cases e with
    | files t => exact h
    | request r => exact h.request hr w.tree hm

/-- After every run the tables of a pipeline agree, whatever the loaders below it answer and
however the files change between the requests. -/
theorem coherent_run (b : Blueprint φ β) (t : FileTree) (f : φ) (g : β) (es : List Event) :
    Coherent b (Event.marks es) ((World.start b t f g).run b es).pipeline := by
  let P : List Event → World φ β → Prop := fun es w =>
    Coherent b (Event.marks es) w.pipeline ∧ w.pipeline.registry.Consistent
  have h0 : P [] (World.start b t f g) :=
    ⟨coherent_ofBlueprint b f g, Registry.consistent_empty⟩
  have hstep (es : List Event) (e : Event) (w : World φ β) (h : P es w) :
      P (es ++ [e]) (w.step b e) := by
    obtain ⟨hc, hr⟩ := h
    constructor
    · rw [Event.marks_snoc]
      exact hc.step hr e
    · cases e with
      | files t => exact hr
      | request r => exact Request.consistent_run hr w.tree r
  exact (World.run_induction h0 hstep es).1

end Overlay.Pipeline
