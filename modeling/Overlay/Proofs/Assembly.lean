import Overlay.Proofs.FirstOccurrences
import Overlay.Proofs.Registration
import Overlay.Startup

/-!
# Assembling a host

A plan names origins by paths, each in a role: the primary archive, the support code, the
extensions. A host can be assembled unless the primary archive, the support code or a path of the
fallback loader's search path leads nowhere; an extension that leads nowhere is left out. The host's
registry then has the places that the paths lead to in the order of the plan. A place that several
paths lead to is registered for the first of them and has the tag of that role.
-/

namespace Overlay

variable {t : FileTree} {p q : Path} {tag : OriginTag}

/-- A place to register with its tag. -/
abbrev Tagged := Path × OriginTag

namespace FileTree

/-- A path leads nowhere: it has no real path. -/
def Nowhere (t : FileTree) (p : Path) : Prop := ∃ e, t.realPath p = .error e

/-- The real paths that tagged paths lead to, without those that lead nowhere. -/
def reached (t : FileTree) (ps : List Tagged) : List Tagged :=
  ps.filterMap fun e => (t.realPath e.1).toOption.map (·, e.2)

theorem not_nowhere (h : t.realPath p = .ok q) : ¬t.Nowhere p := by
  rintro ⟨e, he⟩
  rw [h] at he
  cases he

@[simp] theorem reached_nil (t : FileTree) : t.reached [] = [] := rfl

theorem reached_cons_ok (h : t.realPath p = .ok q) (tag : OriginTag) (ps : List Tagged) :
    t.reached ((p, tag) :: ps) = (q, tag) :: t.reached ps := by
  simp [reached, h, Except.toOption]

theorem reached_cons_error {e : IoError} (h : t.realPath p = .error e) (tag : OriginTag)
    (ps : List Tagged) : t.reached ((p, tag) :: ps) = t.reached ps := by
  simp [reached, h, Except.toOption]

theorem reached_append (t : FileTree) (ps qs : List Tagged) :
    t.reached (ps ++ qs) = t.reached ps ++ t.reached qs := List.filterMap_append

end FileTree

/-- The places of a list that are registered: of those with the same components the first. -/
def Registry.taken (es : List Tagged) : List Tagged := firsts (fun e => e.1.components) es

namespace Registry

variable {es : List Tagged} {r : Registry} {tags : TagStore}

/-- A registry and a tag store hold the tagged places of a list and nothing else. -/
structure Holds (t : FileTree) (es : List Tagged) (r : Registry) (tags : TagStore) : Prop where
  /-- The members are the locations of the origins, each of which occurs once. -/
  consistent : r.Consistent
  /-- The origins are the places of the list, in its order, without later duplicates. -/
  locations : r.order.map (·.location) = (taken es).map (·.1)
  /-- An origin is a directory or else an archive. -/
  kinds : ∀ o ∈ r.order,
    o.kind = if t.isDirectory o.location then OriginKind.directory else .archive
  /-- Each place has the tag that it has where it first occurs, and nothing else has a tag. -/
  tags_eq : tags.tags.entries = (taken es).map fun e => (e.1.components, e.2)

theorem holds_empty (t : FileTree) : Holds t [] empty TagStore.empty :=
  ⟨consistent_empty, rfl, fun _ ho => (nomatch ho), rfl⟩

/-- What is registered are the places of the list. -/
theorem Holds.contains_iff (h : Holds t es r tags) (p : Path) :
    r.contains p = true ↔ p.components ∈ (taken es).map fun e => e.1.components := by
  have hkeys : (taken es).map (fun e => e.1.components) = r.order.map (·.location.components) := by
    have hmapped := congrArg (List.map Path.components) h.locations
    rw [List.map_map, List.map_map] at hmapped
    exact hmapped.symm
  rw [h.consistent.contains_iff, hkeys, List.mem_map]

/-- A place that is not registered has no tag. -/
theorem Holds.lookup_eq_none (h : Holds t es r tags) (hp : r.contains p = false) :
    Table.lookup p.components tags.tags.entries = none := by
  rw [Table.lookup_eq_none_iff, h.tags_eq, List.map_map]
  intro hmem
  rw [(h.contains_iff p).2 hmem] at hp
  cases hp

/-- Inserting an origin adds its place to the list. -/
theorem Holds.insert (h : Holds t es r tags) {o : Origin}
    (hkind : o.kind = if t.isDirectory o.location then OriginKind.directory else .archive)
    (tag : OriginTag) :
    Holds t (es ++ [(o.location, tag)]) (insert o (some tag) r tags).2.1
      (insert o (some tag) r tags).2.2 := by
  have hconsistent := h.consistent.insert o (some tag) tags
  unfold Registry.insert at hconsistent ⊢
  cases hc : r.contains o.location with
  | true =>
    have hsame : taken (es ++ [(o.location, tag)]) = taken es :=
      firsts_concat_of_mem _ es ((h.contains_iff o.location).1 hc)
    simp only [if_true]
    exact ⟨h.consistent, hsame ▸ h.locations, h.kinds, hsame ▸ h.tags_eq⟩
  | false =>
    have hnew : taken (es ++ [(o.location, tag)]) = taken es ++ [(o.location, tag)] :=
      firsts_concat_of_notMem _ es ((h.contains_iff o.location).not.1 (by simp [hc]))
    simp only [hc, Bool.false_eq_true, if_false] at hconsistent ⊢
    refine ⟨hconsistent, ?_, ?_, ?_⟩
    · rw [hnew, append, List.map_append, List.map_append, h.locations, List.map_singleton,
        List.map_singleton]
    · intro o' ho'
      rcases List.mem_append.1 ho' with ho' | ho'
      · exact h.kinds o' ho'
      · rw [List.mem_singleton.1 ho', hkind]
    · rw [hnew, List.map_append, List.map_singleton, ← h.tags_eq]
      exact Table.put_of_lookup (h.lookup_eq_none hc) tag

/-- A path that leads to a place registers the place. -/
theorem Holds.register (h : Holds t es r tags) (hp : t.realPath p = .ok q) (tag : OriginTag) :
    (∃ new, (r.register t p (some tag) tags).1 = .ok new) ∧
      Holds t (es ++ [(q, tag)]) (r.register t p (some tag) tags).2.1
        (r.register t p (some tag) tags).2.2 := by
  have horigin : originAt t p =
      .ok ⟨q, if t.isDirectory q then OriginKind.directory else .archive⟩ := by
    rw [originAt, Origin.ofPath, hp]
  rcases register_cases t p (some tag) r tags with ⟨e, he, -⟩ | ⟨o, ho, hr⟩
  · rw [horigin] at he
    cases he
  · rw [horigin] at ho
    obtain rfl := Except.ok.inj ho
    rw [hr]
    exact ⟨⟨_, rfl⟩, h.insert (o := ⟨q, _⟩) rfl tag⟩

/-- A path that leads nowhere registers nothing. -/
theorem register_nowhere {e : IoError} (hp : t.realPath p = .error e) (tag : Option OriginTag)
    (r : Registry) (tags : TagStore) :
    r.register t p tag tags = (.error (.originUnavailable p e), r, tags) := by
  have horigin : originAt t p = .error (.originUnavailable p e) := by
    rw [originAt, Origin.ofPath, hp]
  unfold Registry.register
  rw [horigin]

end Registry

/-- A search path is registered as a whole, unless one of its paths leads nowhere. -/
theorem SearchPath.register_cases {es : List Tagged} {r : Registry} {tags : TagStore}
    (h : r.Holds t es tags) (ps : List Path) :
    (∃ p ∈ ps, t.Nowhere p) ∧ (∃ e, SearchPath.register t ps r tags = .error e) ∨
      (∀ p ∈ ps, ¬t.Nowhere p) ∧ ∃ r' tags', SearchPath.register t ps r tags = .ok (r', tags') ∧
        r'.Holds t (es ++ t.reached (ps.map (·, .primary))) tags' := by
  induction ps generalizing es r tags with
  | nil => exact Or.inr ⟨nofun, r, tags, rfl, by simpa using h⟩
  | cons p ps ih =>
    rw [SearchPath.register]
    cases hp : t.realPath p with
    | error e =>
      rw [Registry.register_nowhere hp]
      exact Or.inl ⟨⟨p, List.mem_cons_self, e, hp⟩, _, rfl⟩
    | ok q =>
      obtain ⟨⟨new, hnew⟩, hholds⟩ := h.register hp .primary
      generalize r.register t p (some .primary) tags = result at hnew hholds
      obtain ⟨_, r', tags'⟩ := result
      obtain rfl := hnew
      rcases ih hholds with ⟨⟨p', hp', hnowhere⟩, herror⟩ | ⟨hall, hok⟩
      · exact Or.inl ⟨⟨p', List.mem_cons_of_mem p hp', hnowhere⟩, herror⟩
      · refine Or.inr ⟨List.forall_mem_cons.2 ⟨FileTree.not_nowhere hp, hall⟩, ?_⟩
        rw [List.map_cons, FileTree.reached_cons_ok hp]
        simpa using hok

namespace StartPlan

/-- The paths of a plan that are registered, each in its role. -/
def roles (plan : StartPlan) : List Tagged :=
  (plan.primary, .primary) ::
    (plan.support.toList.map (·, .support) ++ plan.extensions.map (·, .early))

/-- A path that the plan cannot do without leads nowhere. -/
def Unusable (t : FileTree) (plan : StartPlan) : Prop :=
  (∃ p ∈ plan.classpath, t.Nowhere p) ∨ t.Nowhere plan.primary ∨
    ∃ p, plan.support = some p ∧ t.Nowhere p

/-- A host's pipeline is as the plan says, and has done nothing yet. -/
structure Assembled (t : FileTree) (plan : StartPlan) (c : Config) (s : HostPipeline) : Prop where
  /-- The registry has the places of the plan's paths, and the tag store has their tags. -/
  registered : s.registry.Holds t (t.reached plan.roles) s.tags
  /-- The fallback loader's search path has the places of the plan's search path. -/
  searchPath : s.fallback.registry.Holds t (t.reached (plan.classpath.map (·, .primary)))
    s.fallback.tags
  /-- The fallback loader has defined nothing and has opened no archive. -/
  fallback : s.fallback.symbols = Table.empty ∧ s.fallback.lookups = LookupState.empty
  /-- Nothing is defined. -/
  defined : s.defined = Table.empty ∧ s.namespaces = []
  /-- Nothing is marked. -/
  marked : s.provenance = Provenance.empty
  /-- No descriptor is kept. -/
  cached : s.metadata = MetadataCache.ofConfig c
  /-- No archive is open. -/
  archives : s.lookups.archives = ArchiveTable.empty
  /-- No transformer is installed, and none was called. -/
  untransformed : s.transformer = none ∧ s.transformed = []

end StartPlan

namespace Startup

/-- A new pipeline that has registered the places of a list, perhaps with notices. -/
structure Registers (t : FileTree) (c : Config) (f : SearchPath) (es : List Tagged)
    (s : HostPipeline) : Prop where
  /-- Registrations and notices are all that distinguishes it from a new one. -/
  eq_new : s = { Pipeline.ofBlueprint (hostBlueprint c) f () with
    registry := s.registry, tags := s.tags, lookups := ⟨ArchiveTable.empty, s.lookups.journal⟩ }
  /-- It has registered the places of the list. -/
  holds : s.registry.Holds t es s.tags

variable {c : Config} {f : SearchPath} {es : List Tagged} {s : HostPipeline}

theorem registers_new (t : FileTree) (c : Config) (f : SearchPath) :
    Registers t c f [] (Pipeline.ofBlueprint (hostBlueprint c) f ()) :=
  ⟨rfl, Registry.holds_empty t⟩

/-- A path that leads to a place registers it. -/
theorem Registers.register (h : Registers t c f es s) (hp : t.realPath p = .ok q)
    (tag : OriginTag) : ∃ new s', s.registerOrigin t p (some tag) = (.ok new, s') ∧
      Registers t c f (es ++ [(q, tag)]) s' := by
  obtain ⟨⟨new, hnew⟩, hholds⟩ := h.holds.register hp tag
  have heq := h.eq_new
  unfold Pipeline.registerOrigin
  generalize s.registry.register t p (some tag) s.tags = result at hnew hholds
  obtain ⟨_, r, tags⟩ := result
  obtain rfl := hnew
  refine ⟨new, { s with registry := r, tags }, rfl, ?_, hholds⟩
  rw [heq]

/-- A path that leads nowhere registers nothing. -/
theorem registerOrigin_nowhere {e : IoError} (hp : t.realPath p = .error e)
    (tag : Option OriginTag) (s : HostPipeline) :
    s.registerOrigin t p tag = (.error (.originUnavailable p e), s) := by
  rw [Pipeline.registerOrigin, Registry.register_nowhere hp]

/-- The extensions that lead to places are registered. -/
theorem Registers.extensions (h : Registers t c f es s) (ps : List Path) :
    Registers t c f (es ++ t.reached (ps.map (·, .early))) (registerExtensions t ps s) := by
  induction ps generalizing es s with
  | nil => simpa [registerExtensions] using h
  | cons p ps ih =>
    rw [registerExtensions]
    cases hp : t.realPath p with
    | error e =>
      rw [registerOrigin_nowhere hp, List.map_cons, FileTree.reached_cons_error hp]
      refine ih ⟨?_, h.holds⟩
      have heq := h.eq_new
      rw [heq]
      rfl
    | ok q =>
      obtain ⟨new, s', hs', hregisters⟩ := h.register hp .early
      rw [hs', List.map_cons, FileTree.reached_cons_ok hp]
      simpa using ih hregisters

/-- The support code is registered if there is any, unless it leads nowhere. -/
theorem Registers.support_cases (h : Registers t c f es s) (support : Option Path) :
    (∃ p, support = some p ∧ t.Nowhere p) ∧ (∃ e, registerSupport t support s = .error e) ∨
      (∀ p, support = some p → ¬t.Nowhere p) ∧ ∃ s', registerSupport t support s = .ok s' ∧
        Registers t c f (es ++ t.reached (support.toList.map (·, .support))) s' := by
  unfold registerSupport
  cases support with
  | none => exact Or.inr ⟨nofun, s, rfl, by simpa using h⟩
  | some p =>
    dsimp only
    cases hp : t.realPath p with
    | error e =>
      rw [registerOrigin_nowhere hp]
      exact Or.inl ⟨⟨p, rfl, e, hp⟩, _, rfl⟩
    | ok q =>
      obtain ⟨new, s', hs', hregisters⟩ := h.register hp .support
      rw [hs']
      refine Or.inr ⟨?_, s', rfl, ?_⟩
      · intro p' hp'
        obtain rfl := Option.some.inj hp'
        exact FileTree.not_nowhere hp
      · rw [Option.toList_some, List.map_singleton, FileTree.reached_cons_ok hp]
        exact hregisters

/-- The search path of the fallback loader is that of the plan. -/
theorem ofPaths_cases (t : FileTree) (ps : List Path) (suffix : String) :
    (∃ p ∈ ps, t.Nowhere p) ∧ (∃ e, SearchPath.ofPaths t ps suffix = .error e) ∨
      (∀ p ∈ ps, ¬t.Nowhere p) ∧ ∃ f, SearchPath.ofPaths t ps suffix = .ok f ∧
        f.registry.Holds t (t.reached (ps.map (·, .primary))) f.tags ∧
          f.symbols = Table.empty ∧ f.lookups = LookupState.empty := by
  unfold SearchPath.ofPaths
  rcases SearchPath.register_cases (Registry.holds_empty t) ps with
      ⟨hnowhere, e, he⟩ | ⟨hall, r, tags, hr, hholds⟩
  · rw [he]
    exact Or.inl ⟨hnowhere, e, rfl⟩
  · rw [hr]
    exact Or.inr ⟨hall, ⟨suffix, r, tags, Table.empty, LookupState.empty⟩, rfl, hholds, rfl, rfl⟩

/-- A pipeline that has registered the places of a plan is assembled as the plan says. -/
theorem Registers.assembled {plan : StartPlan}
    (h : Registers t c f (t.reached plan.roles) s)
    (hf : f.registry.Holds t (t.reached (plan.classpath.map (·, .primary))) f.tags)
    (hfresh : f.symbols = Table.empty ∧ f.lookups = LookupState.empty) :
    plan.Assembled t c s := by
  have hholds := h.holds
  rw [h.eq_new]
  exact ⟨hholds, hf, hfresh, ⟨rfl, rfl⟩, rfl, rfl, rfl, ⟨rfl, rfl⟩⟩

/-- Assembling fails just if a path that the plan cannot do without leads nowhere, and else gives a
pipeline that is as the plan says. -/
theorem assemble_cases (t : FileTree) (plan : StartPlan) (c : Config) :
    plan.Unusable t ∧ (∃ e, assemble t plan c = .error e) ∨
      ¬plan.Unusable t ∧ ∃ s, assemble t plan c = .ok s ∧ plan.Assembled t c s := by
  unfold assemble
  rcases ofPaths_cases t plan.classpath c.resourceSuffix with
      ⟨hnowhere, e, he⟩ | ⟨hall, f, hf, hpath, hfresh⟩
  · rw [he]
    exact Or.inl ⟨Or.inl hnowhere, _, rfl⟩
  · rw [hf]
    dsimp only
    cases hprimary : t.realPath plan.primary with
    | error e =>
      rw [registerOrigin_nowhere hprimary]
      exact Or.inl ⟨Or.inr (Or.inl ⟨e, hprimary⟩), _, rfl⟩
    | ok q =>
      obtain ⟨new, s, hs, hregisters⟩ := (registers_new t c f).register hprimary .primary
      rw [hs]
      dsimp only
      rcases hregisters.support_cases plan.support with
          ⟨hnowhere, e, he⟩ | ⟨hsupport, s', hs', hregisters'⟩
      · rw [he]
        exact Or.inl ⟨Or.inr (Or.inr hnowhere), e, rfl⟩
      · rw [hs']
        have hlast := hregisters'.extensions plan.extensions
        refine Or.inr ⟨?_, _, rfl, Registers.assembled ?_ hpath hfresh⟩
        · rintro (⟨p, hp, hnowhere⟩ | hnowhere | ⟨p, hp, hnowhere⟩)
          · exact hall p hp hnowhere
          · exact FileTree.not_nowhere hprimary hnowhere
          · exact hsupport p hp hnowhere
        · rw [StartPlan.roles, FileTree.reached_cons_ok hprimary, FileTree.reached_append]
          simpa using hlast

/-- A host is assembled from a plan unless the primary archive, the support code or a path of the
search path leads nowhere, and then it is as the plan says. -/
theorem assembles (t : FileTree) (plan : StartPlan) (c : Config) :
    ((∃ e, assemble t plan c = .error e) ↔ plan.Unusable t) ∧
      ∀ s, assemble t plan c = .ok s → plan.Assembled t c s := by
  rcases assemble_cases t plan c with ⟨hunusable, e, he⟩ | ⟨husable, s, hs, hassembled⟩
  · rw [he]
    exact ⟨iff_of_true ⟨e, rfl⟩ hunusable, nofun⟩
  · rw [hs]
    refine ⟨iff_of_false nofun husable, fun s' hs' => ?_⟩
    obtain rfl := Except.ok.inj hs'
    exact hassembled

namespace LinkedSupport

/-- An archive with a link to it, and two directories. -/
def tree : FileTree :=
  ⟨[(["p.tar"], .file ByteArray.empty), (["alias"], .link ⟨"p.tar"⟩), (["lib"], .directory),
    (["ext"], .directory)], []⟩

/-- The support code is the primary archive itself, one extension is missing and another one comes
twice. -/
def plan : StartPlan where
  primary := ⟨"p.tar"⟩
  support := some ⟨"/alias"⟩
  extensions := [⟨"lib/"⟩, ⟨"missing"⟩, ⟨"ext"⟩, ⟨"./lib"⟩]
  classpath := [⟨"lib"⟩]

/-- Each place is registered once, with the tag of its first role. -/
theorem assembles_plan :
    ∃ s, assemble tree plan {} = .ok s ∧
      s.registry.order.map (·.location) = [⟨"/p.tar"⟩, ⟨"/lib"⟩, ⟨"/ext"⟩] ∧
      s.tags.tags.entries.map (·.2) = [.primary, .early, .early] ∧
      s.defined = Table.empty := by
  have hprimary : tree.realPath ⟨"p.tar"⟩ = .ok ⟨"/p.tar"⟩ := by decide +kernel
  have hsupport : tree.realPath ⟨"/alias"⟩ = .ok ⟨"/p.tar"⟩ := by decide +kernel
  have hpath : tree.realPath ⟨"lib"⟩ = .ok ⟨"/lib"⟩ := by decide +kernel
  have husable : ¬plan.Unusable tree := by
    rintro (⟨p, hp, hnowhere⟩ | hnowhere | ⟨p, hp, hnowhere⟩)
    · obtain rfl := List.mem_singleton.1 hp
      exact FileTree.not_nowhere hpath hnowhere
    · exact FileTree.not_nowhere hprimary hnowhere
    · obtain rfl := Option.some.inj hp
      exact FileTree.not_nowhere hsupport hnowhere
  have htaken : Registry.taken (tree.reached plan.roles) =
      [(⟨"/p.tar"⟩, .primary), (⟨"/lib"⟩, .early), (⟨"/ext"⟩, .early)] := by decide +kernel
  obtain ⟨hfails, hok⟩ := assembles tree plan {}
  cases hs : assemble tree plan {} with
  | error e => exact absurd (hfails.1 ⟨e, hs⟩) husable
  | ok s =>
    have hassembled := hok s hs
    refine ⟨s, rfl, ?_, ?_, hassembled.defined.1⟩
    · rw [hassembled.registered.locations, htaken]
      rfl
    · rw [hassembled.registered.tags_eq, htaken]
      rfl

end LinkedSupport

end Startup

end Overlay
