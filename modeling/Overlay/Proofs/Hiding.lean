import Overlay.Loader.Memory
import Overlay.Proofs.Loading
import Overlay.Proofs.Lookups

/-!
# Registered origins hide the other loaders

A pipeline asks the loaders below it only for what no registered origin has, and for the names that
are theirs. While every request is served by the registered origins, the other loaders are not
asked at all. So a run over one pair of loaders is the run over any other pair: the answers are the
same, and so is the pipeline, save for the loaders' states, which stay as they were.
-/

namespace Overlay

variable {φ β φ' β' : Type}

/-- A fallback loader that notes in its state what it is asked for. -/
def FallbackLoader.recorded (l : FallbackLoader φ) : FallbackLoader (φ × List Query) where
  resolve t name s :=
    let (found, f) := l.resolve t name s.1
    (found, f, s.2 ++ [.resource name])
  resolveAll t name s :=
    let (found, f) := l.resolveAll t name s.1
    (found, f, s.2 ++ [.resource name])
  loadSymbol t name s :=
    let (found, f) := l.loadSymbol t name s.1
    (found, f, s.2 ++ [.symbol name])

/-- A bootstrap loader that notes in its state what it is asked for. -/
def BootstrapLoader.recorded (k : BootstrapLoader β) : BootstrapLoader (β × List Query) where
  loadSymbol t name s :=
    let (found, g) := k.loadSymbol t name s.1
    (found, g, s.2 ++ [.symbol name])

/-- The same blueprint beside other loaders. -/
def Blueprint.beside (l : FallbackLoader φ') (k : BootstrapLoader β') (b : Blueprint φ β) :
    Blueprint φ' β' := ⟨b.config, l, k⟩

theorem Blueprint.config_beside (b : Blueprint φ β) (l : FallbackLoader φ')
    (k : BootstrapLoader β') : (b.beside l k).config = b.config := rfl

namespace Pipeline

/-- The same pipeline with other loaders' states. -/
def beside (f : φ') (g : β') (s : Pipeline φ β) : Pipeline φ' β' :=
  { s with fallback := f, bootstrap := g }

/-- Whether a registered origin has a resource. -/
def holds (t : FileTree) (resource : String) (s : Pipeline φ β) : Bool :=
  (s.registry.find? t resource s.lookups).1.isSome

variable {b : Blueprint φ β} {l : FallbackLoader φ'} {k : BootstrapLoader β'} {t : FileTree}
  {f : φ'} {g : β'} {s : Pipeline φ β}

/-- Reading a resource that a registered origin has does not come out empty. -/
theorem resolveRegistered_ne_none {resource : String} (h : s.holds t resource = true) :
    (s.resolveRegistered t resource).1 ≠ .ok none := by
  intro he
  rw [holds, Registry.find?_eq_none_iff.2 he] at h
  cases h

/-- So there is a raw definition of a name that a registered origin has, unless it cannot be read. -/
theorem fetch_ne_none {name : String}
    (h : s.holds t (SymbolName.resource name b.config.resourceSuffix) = true) (allowed : Bool) :
    (s.fetch b t name allowed).1 ≠ .ok none := by
  have hfound := resolveRegistered_ne_none h
  unfold fetch
  generalize s.resolveRegistered t (SymbolName.resource name b.config.resourceSuffix) = r at hfound
  rcases r with ⟨e | _ | found, s₁⟩
  · simp
  · exact absurd rfl hfound
  · simp

section Beside

theorem registry_beside : (s.beside f g).registry = s.registry := rfl

theorem lookups_beside : (s.beside f g).lookups = s.lookups := rfl

theorem provenance_beside : (s.beside f g).provenance = s.provenance := rfl

theorem transformer_beside : (s.beside f g).transformer = s.transformer := rfl

theorem transformed_beside : (s.beside f g).transformed = s.transformed := rfl

theorem defined_beside : (s.beside f g).defined = s.defined := rfl

theorem namespaces_beside : (s.beside f g).namespaces = s.namespaces := rfl

/-- The registered origins are looked through without the other loaders. -/
theorem resolveRegistered_beside (resource : String) :
    (s.beside f g).resolveRegistered t resource =
      (s.resolveRegistered t resource).map id (beside f g) := rfl

/-- The raw definition of a name that a registered origin has is fetched without the other
loaders. -/
theorem fetch_beside {name : String}
    (h : s.holds t (SymbolName.resource name b.config.resourceSuffix) = true) (allowed : Bool) :
    (s.beside f g).fetch (b.beside l k) t name allowed =
      (s.fetch b t name allowed).map id (beside f g) := by
  have hfound := resolveRegistered_ne_none h
  unfold fetch
  rw [Blueprint.config_beside, resolveRegistered_beside]
  generalize s.resolveRegistered t (SymbolName.resource name b.config.resourceSuffix) = r at hfound
  rcases r with ⟨e | _ | found, s₁⟩
  · rfl
  · exact absurd rfl hfound
  · rfl

/-- A definition is transformed without the other loaders. -/
theorem transform_beside (name : String) (bytes : ByteArray) :
    (s.beside f g).transform (b.beside l k) name bytes =
      (s.transform b name bytes).map id (beside f g) := by
  unfold transform
  rw [transformer_beside, transformed_beside, Blueprint.config_beside]
  split
  · rfl
  · split
    · dsimp only
      split <;> rfl
    · rfl

/-- A symbol is defined without the other loaders. -/
theorem define_beside (name : String) (d : Fetched) (bytes : ByteArray) :
    (s.beside f g).define t name d bytes = (s.define t name d bytes).map id (beside f g) := by
  have hmark : (s.beside f g).markFetched name d = (s.markFetched name d).beside f g := by
    unfold markFetched
    split <;> rfl
  have hdescribe (s' : Pipeline φ β) : (s'.beside f g).describe t d.codeSource =
      (s'.describe t d.codeSource).map id (beside f g) := by
    unfold describe
    split <;> rfl
  have hnote (s' : Pipeline φ β) :
      (s'.beside f g).noteNamespace name = (s'.noteNamespace name).beside f g := by
    unfold noteNamespace
    split
    · rfl
    · rw [namespaces_beside]
      split <;> rfl
  unfold define
  rw [hmark, hdescribe]
  generalize (s.markFetched name d).describe t d.codeSource = described
  obtain ⟨descriptor, s₁⟩ := described
  dsimp only [Prod.map, id]
  rw [hnote]
  rfl

/-- A name that a registered origin has, and that belongs to no other loader, is loaded without the
other loaders. -/
theorem loadDotted_beside {name : String}
    (h : s.holds t (SymbolName.resource name b.config.resourceSuffix) = true)
    (hs : b.config.isSupport name = false) (hb : b.config.isBootstrap name = false)
    (allowed : Bool) :
    (s.beside f g).loadDotted (b.beside l k) t name allowed =
      (s.loadDotted b t name allowed).map id (beside f g) := by
  have hfetched := fetch_ne_none h (allowed || s.provenance.isFallbackSourced name)
  unfold loadDotted tryDefine
  rw [defined_beside, provenance_beside, Blueprint.config_beside, fetch_beside h]
  generalize s.fetch b t name (allowed || s.provenance.isFallbackSourced name) = r at hfetched
  cases s.defined.get? name with
  | some x => rfl
  | none =>
    simp only [hs, hb, Bool.false_eq_true, if_false]
    rcases r with ⟨e | _ | d, s₁⟩
    · rfl
    · exact absurd rfl hfetched
    · dsimp only [Prod.map, id]
      rw [transform_beside]
      generalize s₁.transform b name d.bytes = r
      rcases r with ⟨e | bytes, s₂⟩
      · rfl
      · dsimp only [Prod.map, id]
        rw [define_beside]
        rfl

/-- The place of a resource that a registered origin has is found without the other loaders. -/
theorem resource_beside {name : String} (h : s.holds t name = true) :
    (s.beside f g).resource (b.beside l k) t name = (s.resource b t name).map id (beside f g) := by
  unfold holds at h
  unfold resource
  rw [registry_beside, lookups_beside]
  generalize s.registry.find? t name s.lookups = r at h
  rcases r with ⟨_ | place, lookups⟩
  · cases h
  · rfl

/-- The places of a resource that a registered origin has are found without the other loaders. -/
theorem resources_beside {name : String} (h : s.holds t name = true) :
    (s.beside f g).resources (b.beside l k) t name = (s.resources b t name).map id (beside f g) := by
  -- the fallback loader is asked only if the list of places is empty
  have hne : (s.registry.findAll t name s.lookups).1 ≠ [] := by
    rw [Ne, Registry.findAll_eq_nil_iff]
    intro he
    rw [holds, he] at h
    cases h
  unfold resources
  rw [registry_beside, lookups_beside]
  generalize s.registry.findAll t name s.lookups = r at hne
  rcases r with ⟨_ | ⟨place, places⟩, lookups⟩
  · exact absurd rfl hne
  · rfl

/-- The content of a resource that a registered origin has is read without the other loaders. -/
theorem resourceBytes_beside {name : String} (h : s.holds t name = true) :
    (s.beside f g).resourceBytes (b.beside l k) t name =
      (s.resourceBytes b t name).map id (beside f g) := by
  have hfound := resolveRegistered_ne_none h
  unfold resourceBytes
  rw [resolveRegistered_beside]
  generalize s.resolveRegistered t name = r at hfound
  rcases r with ⟨e | _ | found, s₁⟩
  · rfl
  · exact absurd rfl hfound
  · rfl

/-- The definition of a name that a registered origin has is told without the other loaders. -/
theorem symbolBytes_beside {name : String} (h : s.holds t
      (SymbolName.resource (SymbolName.dotted name) b.config.resourceSuffix) = true)
    (transformed : Bool) :
    (s.beside f g).symbolBytes (b.beside l k) t name transformed =
      (s.symbolBytes b t name transformed).map id (beside f g) := by
  unfold symbolBytes
  rw [fetch_beside h]
  generalize s.fetch b t (SymbolName.dotted name) true = r
  rcases r with ⟨e | _ | d, s₁⟩
  · rfl
  · rfl
  · dsimp only [Prod.map, id]
    rw [transform_beside]
    generalize s₁.transform b (SymbolName.dotted name) d.bytes = r
    split
    · rcases r with ⟨e | bytes, s₂⟩ <;> rfl
    · rfl

/-- The raw definition of a name that a registered origin has is told without the other loaders. -/
theorem rawBytes_beside {name : String} (h : s.holds t
      (SymbolName.resource (SymbolName.dotted name) b.config.resourceSuffix) = true) :
    (s.beside f g).rawBytes (b.beside l k) t name = (s.rawBytes b t name).map id (beside f g) := by
  unfold rawBytes
  rw [fetch_beside h]
  generalize s.fetch b t (SymbolName.dotted name) true = r
  rcases r with ⟨e | d, s₁⟩ <;> rfl

end Beside

end Pipeline

namespace Request

/-- Whether a request is served by the registered origins: one of them has what it looks for, and a
name that it loads belongs to no other loader. -/
def served (b : Blueprint φ β) (t : FileTree) (s : Pipeline φ β) : Request → Bool
  | load name _ =>
    let name := SymbolName.dotted name
    s.holds t (SymbolName.resource name b.config.resourceSuffix) &&
      !b.config.isSupport name && !b.config.isBootstrap name
  | rawBytes name | symbolBytes name _ =>
    s.holds t (SymbolName.resource (SymbolName.dotted name) b.config.resourceSuffix)
  | resource name | resourceBytes name | resources name => s.holds t name
  | register _ _ | install _ | isLoaded _ | descriptor _ | mark _ => true

/-- A served request is carried out without the other loaders. -/
theorem run_beside {b : Blueprint φ β} {t : FileTree} {s : Pipeline φ β} {r : Request}
    (h : r.served b t s = true) (l : FallbackLoader φ') (k : BootstrapLoader β') (f : φ') (g : β') :
    r.run (b.beside l k) t (s.beside f g) = (r.run b t s).map id (Pipeline.beside f g) := by
  cases r with
  | load name allowed =>
    simp only [served, Bool.and_eq_true, Bool.not_eq_true'] at h
    obtain ⟨⟨hheld, hs⟩, hb⟩ := h
    rw [run_load, run_load, Pipeline.loadDotted_beside hheld hs hb]
    rfl
  | resource name => simp only [run, Pipeline.resource_beside h, Prod.map, id]
  | resources name => simp only [run, Pipeline.resources_beside h, Prod.map, id]
  | resourceBytes name => simp only [run, Pipeline.resourceBytes_beside h, Prod.map, id]
  | rawBytes name => simp only [run, Pipeline.rawBytes_beside h, Prod.map, id]
  | symbolBytes name transformed => simp only [run, Pipeline.symbolBytes_beside h, Prod.map, id]
  | register p tag | isLoaded name | descriptor location | mark name => rfl
  | install tr =>
    simp only [run, Pipeline.install]
    rw [Pipeline.transformer_beside]
    split <;> rfl

end Request

namespace World

/-- The same world with other loaders' states. -/
def beside (f : φ') (g : β') (w : World φ β) : World φ' β' := ⟨w.tree, w.pipeline.beside f g⟩

/-- Whether the registered origins serve an event; nothing is asked for when the files change. -/
def serves (b : Blueprint φ β) (w : World φ β) : Event → Bool
  | .request r => r.served b w.tree w.pipeline
  | .files _ => true

/-- Whether the registered origins serve every event of a run. -/
def servesAll (b : Blueprint φ β) : World φ β → List Event → Bool
  | _, [] => true
  | w, e :: es => w.serves b e && servesAll b (w.step b e) es

variable {b : Blueprint φ β} {w : World φ β}

theorem tree_beside (f : φ') (g : β') : (w.beside f g).tree = w.tree := rfl

theorem pipeline_beside (f : φ') (g : β') :
    (w.beside f g).pipeline = w.pipeline.beside f g := rfl

/-- A served event takes place without the other loaders. -/
theorem step_beside {e : Event} (h : w.serves b e = true) (l : FallbackLoader φ')
    (k : BootstrapLoader β') (f : φ') (g : β') :
    (w.beside f g).answer? (b.beside l k) e = w.answer? b e ∧
      (w.beside f g).step (b.beside l k) e = (w.step b e).beside f g := by
  cases e with
  | files t => exact ⟨rfl, rfl⟩
  | request r =>
    have hr := Request.run_beside h l k f g
    simp only [answer?, step]
    rw [pipeline_beside, tree_beside, hr]
    exact ⟨rfl, rfl⟩

/-- A served run takes place without the other loaders. -/
theorem run_beside {es : List Event} (h : w.servesAll b es = true) (l : FallbackLoader φ')
    (k : BootstrapLoader β') (f : φ') (g : β') :
    (w.beside f g).answers (b.beside l k) es = w.answers b es ∧
      (w.beside f g).run (b.beside l k) es = (w.run b es).beside f g := by
  induction es generalizing w with
  | nil => exact ⟨rfl, rfl⟩
  | cons e es ih =>
    rw [servesAll, Bool.and_eq_true] at h
    obtain ⟨hanswer, hstep⟩ := step_beside h.1 l k f g
    obtain ⟨hanswers, hrun⟩ := ih h.2
    rw [answers, answers, run_cons, run_cons, hanswer, hstep, hanswers, hrun]
    exact ⟨rfl, rfl⟩

/-- What the fallback loader and the bootstrap loader are asked for in a run. -/
def queries (b : Blueprint φ β) (w : World φ β) (es : List Event) : List Query :=
  let recorded :=
    (w.beside (w.pipeline.fallback, []) (w.pipeline.bootstrap, [])).run
      (b.beside b.fallback.recorded b.bootstrap.recorded) es
  recorded.pipeline.fallback.2 ++ recorded.pipeline.bootstrap.2

/-- A served run asks the other loaders for nothing. -/
theorem queries_eq_nil {es : List Event} (h : w.servesAll b es = true) : w.queries b es = [] := by
  unfold queries
  rw [(run_beside h b.fallback.recorded b.bootstrap.recorded _ _).2]
  rfl

/-- A served run leaves the other loaders' states as they were. -/
theorem loaders_of_servesAll {es : List Event} (h : w.servesAll b es = true) :
    (w.run b es).pipeline.fallback = w.pipeline.fallback ∧
      (w.run b es).pipeline.bootstrap = w.pipeline.bootstrap := by
  have hrun := (run_beside h b.fallback b.bootstrap w.pipeline.fallback w.pipeline.bootstrap).2
  have hself : (w.beside w.pipeline.fallback w.pipeline.bootstrap).run
      (b.beside b.fallback b.bootstrap) es = w.run b es := rfl
  rw [hself] at hrun
  exact ⟨congrArg (·.pipeline.fallback) hrun, congrArg (·.pipeline.bootstrap) hrun⟩

/-- A run that is served over one pair of loaders is served over any other pair. -/
theorem servesAll_beside {es : List Event} (h : w.servesAll b es = true) (l : FallbackLoader φ')
    (k : BootstrapLoader β') (f : φ') (g : β') :
    (w.beside f g).servesAll (b.beside l k) es = true := by
  induction es generalizing w with
  | nil => rfl
  | cons e es ih =>
    rw [servesAll, Bool.and_eq_true] at h ⊢
    rw [(step_beside h.1 l k f g).2]
    refine ⟨?_, ih h.2⟩
    have hserves := h.1
    cases e with
    | files t => rfl
    | request r => cases r <;> exact hserves

/-- Two new pipelines of one configuration that differ in their other loaders run alike while
registered origins serve the run: they give the same answers and end with the same tables, views,
notices and log, and in neither run is another loader asked for anything. -/
theorem alike_of_servesAll {b : Blueprint φ β} {b' : Blueprint φ' β'}
    (hconfig : b'.config = b.config) (t : FileTree) (f : φ) (g : β) (f' : φ') (g' : β')
    (es : List Event) (h : (start b t f g).servesAll b es = true) :
    let w := start b t f g
    let w' := start b' t f' g'
    w'.answers b' es = w.answers b es ∧
      w'.run b' es = (w.run b es).beside f' g' ∧
      (w.run b es).pipeline.fallback = f ∧ (w.run b es).pipeline.bootstrap = g ∧
      w.queries b es = [] ∧ w'.queries b' es = [] := by
  intro w w'
  obtain ⟨c, l, k⟩ := b
  obtain ⟨c', l', k'⟩ := b'
  obtain rfl : c' = c := hconfig
  obtain ⟨hanswers, hrun⟩ := run_beside h l' k' f' g'
  obtain ⟨hf, hg⟩ := loaders_of_servesAll h
  exact ⟨hanswers, hrun, hf, hg, queries_eq_nil h, queries_eq_nil (servesAll_beside h l' k' f' g')⟩

/-- A fallback loader's own copies make no difference, also when the registered copy of a symbol
cannot be read. -/
theorem alike_of_registered_directory :
    let t : FileTree :=
      ⟨[(["ext"], .directory), (["ext", "A.sym"], .file ⟨#[49]⟩),
        (["ext", "B.sym"], .unreadable)], []⟩
    let stored (name : String) : Resource := ⟨.entry ⟨"/a.tar"⟩ name, ⟨#[50]⟩⟩
    let f := (Memory.empty.addResource "A.sym" (stored "A.sym")).addResource "B.sym" (stored "B.sym")
    let b : Blueprint Memory Memory := ⟨{}, Memory.loader, Memory.bootstrapLoader⟩
    let b' : Blueprint Memory Unit := ⟨{}, Memory.loader, BootstrapLoader.none⟩
    let es : List Event :=
      [.request (.register ⟨"/ext"⟩ none), .request (.load "A" false),
        .request (.load "B" true), .request (.resource "B.sym"), .request (.resources "A.sym"),
        .request (.resourceBytes "B.sym"), .files ⟨t.nodes, ["ext"]⟩,
        .request (.rawBytes "B"), .request (.symbolBytes "A" true)]
    let w := World.start b t f Memory.empty
    let w' := World.start b' t Memory.empty ()
    w.servesAll b es = true ∧ w'.answers b' es = w.answers b es ∧
      w'.run b' es = (w.run b es).beside Memory.empty () ∧
      w.queries b es = [] ∧ w'.queries b' es = [] := by
  intro t stored f b b' es w w'
  have hserved : w.servesAll b es = true := by decide +kernel
  have hconfig : b'.config = b.config := rfl
  obtain ⟨hanswers, hrun, -, -, hqueries, hqueries'⟩ :=
    alike_of_servesAll hconfig t f Memory.empty Memory.empty () es hserved
  exact ⟨hserved, hanswers, hrun, hqueries, hqueries'⟩

end World

end Overlay
