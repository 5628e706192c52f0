import Overlay.Proofs.Describing

/-!
# Pipelines that are ahead

A pipeline is ahead of another one if it has read the descriptors of some registered origins that
the other one has not asked for yet. While the files stay as they are, the descriptor of such an
origin stays what it was: the views that are opened meanwhile show the file from which it was read.
So the two answer alike, one operation after the other, as long as who asks for a descriptor names
an origin by its location.
-/

namespace Overlay

open FileTree

/-- A path that following leads to in some tree. -/
def Path.IsReal (p : Path) : Prop := ∃ t place, Settled t place ∧ p = pathOf place

theorem Path.isReal_of_realPath {t : FileTree} (hw : t.HasRealWorkingDirectory) {p q : Path}
    (h : t.realPath p = .ok q) : q.IsReal := by
  obtain ⟨place, hplace, rfl⟩ := settled_of_realPath hw h
  exact ⟨t, place, hplace, rfl⟩

/-- An origin is known by a real path. -/
theorem Origin.isReal_of_ofPath {t : FileTree} (hw : t.HasRealWorkingDirectory) {p : Path}
    {o : Origin} (h : Origin.ofPath t p = .ok o) : o.location.IsReal := by
  unfold Origin.ofPath at h
  split at h
  · cases h
  · rename_i location hreal
    obtain rfl := Except.ok.inj h
    exact Path.isReal_of_realPath hw hreal

/-- Real paths with the same components are the same. -/
theorem Path.IsReal.eq_of_components {p q : Path} (hp : p.IsReal) (hq : q.IsReal)
    (h : p.components = q.components) : p = q := by
  obtain ⟨t, place, hplace, rfl⟩ := hp
  obtain ⟨t', place', hplace', rfl⟩ := hq
  rw [hplace.eq_of_components hplace' h]

/-- The origins of a registry are known by real paths. -/
def Registry.IsReal (r : Registry) : Prop := ∀ o ∈ r.order, o.location.IsReal

theorem Registry.IsReal.register {r : Registry} (h : r.IsReal) {t : FileTree}
    (hw : t.HasRealWorkingDirectory) (p : Path) (tag : Option OriginTag) (tags : TagStore) :
    (r.register t p tag tags).2.1.IsReal := by
  intro o ho
  rcases Registry.mem_order_register ho with ho | ho
  · exact h o ho
  · exact Origin.isReal_of_ofPath hw ho

/-- A path that names one of some origins is the origin's location. -/
def Origin.Canonical (os : List Origin) (p : Path) : Prop :=
  ∀ o ∈ os, o.location.components = p.components → o.location = p

section Journals

variable {t : FileTree} {s : LookupState}

/-- The same views with other notices. -/
def LookupState.withJournal (j : Journal) (s : LookupState) : LookupState := ⟨s.archives, j⟩

/-- An outcome of a look-up with other notices. -/
def LookupState.Alike {α : Type} (r r' : α × LookupState) : Prop :=
  ∃ j, r' = (r.1, r.2.withJournal j)

/-- What an archive is seen as does not depend on notices. -/
theorem Origin.view_withJournal (t : FileTree) (o : Origin) (s : LookupState) (j : Journal) :
    LookupState.Alike (o.view t s) (o.view t (s.withJournal j)) := by
  unfold Origin.view
  rw [show (s.withJournal j).archives = s.archives from rfl]
  split
  · exact ⟨j, rfl⟩
  · exact ⟨_, rfl⟩

/-- Whether an origin has a resource does not depend on notices. -/
theorem Origin.holds_withJournal (t : FileTree) (resource : String) (o : Origin) (s : LookupState)
    (j : Journal) :
    LookupState.Alike (o.holds t resource s) (o.holds t resource (s.withJournal j)) := by
  unfold holds
  split
  · exact ⟨j, rfl⟩
  · split
    · exact ⟨j, rfl⟩
    · obtain ⟨j', he⟩ := o.view_withJournal t s j
      rw [he]
      exact ⟨j', rfl⟩

/-- What is read from an origin does not depend on notices. -/
theorem Origin.readResource_withJournal (t : FileTree) (resource : String) (o : Origin)
    (s : LookupState) (j : Journal) :
    LookupState.Alike (o.readResource t resource s)
      (o.readResource t resource (s.withJournal j)) := by
  unfold readResource
  split
  · exact ⟨j, rfl⟩
  · split
    · dsimp only
      split
      · exact ⟨j, rfl⟩
      · split <;> exact ⟨j, rfl⟩
    · obtain ⟨j', he⟩ := o.view_withJournal t s j
      rw [he]
      exact ⟨j', rfl⟩

namespace Registry

theorem findIn_withJournal (t : FileTree) (resource : String) (os : List Origin)
    (s : LookupState) (j : Journal) :
    LookupState.Alike (findIn t resource os s) (findIn t resource os (s.withJournal j)) := by
  induction os generalizing s j with
  | nil => exact ⟨j, rfl⟩
  | cons o os ih =>
    obtain ⟨j', he⟩ := o.holds_withJournal t resource s j
    rw [findIn, findIn, he]
    generalize o.holds t resource s = r
    rcases r with ⟨_ | _, s₁⟩
    · exact ih s₁ j'
    · exact ⟨j', rfl⟩

theorem findAllIn_withJournal (t : FileTree) (resource : String) (os : List Origin)
    (s : LookupState) (j : Journal) :
    LookupState.Alike (findAllIn t resource os s) (findAllIn t resource os (s.withJournal j)) := by
  induction os generalizing s j with
  | nil => exact ⟨j, rfl⟩
  | cons o os ih =>
    obtain ⟨j', he⟩ := o.holds_withJournal t resource s j
    rw [findAllIn, findAllIn, he]
    generalize o.holds t resource s = r
    rcases r with ⟨_ | _, s₁⟩
    · exact ih s₁ j'
    · obtain ⟨j'', he'⟩ := ih s₁ j'
      dsimp only
      rw [he']
      exact ⟨j'', rfl⟩

theorem resolveIn_withJournal (t : FileTree) (resource : String) (os : List Origin)
    (s : LookupState) (j : Journal) :
    LookupState.Alike (resolveIn t resource os s) (resolveIn t resource os (s.withJournal j)) := by
  induction os generalizing s j with
  | nil => exact ⟨j, rfl⟩
  | cons o os ih =>
    obtain ⟨j', he⟩ := o.readResource_withJournal t resource s j
    rw [resolveIn, resolveIn, he]
    generalize o.readResource t resource s = r
    rcases r with ⟨e | _ | found, s₁⟩
    · exact ⟨j', rfl⟩
    · exact ih s₁ j'
    · exact ⟨j', rfl⟩

end Registry

end Journals

namespace MetadataCache

variable {t : FileTree} {os : List Origin} {a a' : ArchiveTable} {p : Path}

/-- Views that are opened on the same files do not change what is read, if they show the origin
itself. -/
theorem fresh_opens (h : a.Opens t os a') (hp : Origin.Canonical os p) (m : MetadataCache) :
    m.fresh t a' p = m.fresh t a p := by
  cases hd : t.isDirectory p with
  | true =>
    unfold fresh compute
    rw [hd]
    rfl
  | false =>
    have hacquire (hsame : a'.get? p = a.get? p) : m.fresh t a' p = m.fresh t a p := by
      unfold fresh compute ofArchive ArchiveTable.acquire
      rw [hsame]
    cases hg : a.get? p with
    | some i => exact hacquire ((h.kept p i hg).trans hg.symm)
    | none =>
      cases hg' : a'.get? p with
      | none => exact hacquire (hg'.trans hg.symm)
      | some i =>
        obtain ⟨o, ho, hc, hi⟩ := h.opened p i hg hg'
        rw [hp o ho hc] at hi
        have hview (b : ArchiveTable) (hb : ∀ k, b.get? p = some k → k = i) :
            m.fresh t b p = m.ofView i :=
          fresh_eq_ofView hd hi (fun k hk => by rw [hb k hk]) m
        rw [hview a' (by simp [hg']), hview a (by simp [hg])]

/-- The descriptor that is answered is the kept one, or the one that is read now. -/
theorem descriptorFor_fst (t : FileTree) (p : Path) (m : MetadataCache) (s : LookupState) :
    (m.descriptorFor t p s).1 = (m.get? p).getD (m.fresh t s.archives p) := by
  rcases m.descriptorFor_cases t p s with ⟨d, hd, he⟩ | ⟨hn, he, -⟩
  · rw [he, hd, Option.getD_some]
  · rw [he, hn, Option.getD_none]

/-- After a descriptor was asked for, it is kept, and the other ones are kept as before. -/
theorem get?_descriptorFor (t : FileTree) (p q : Path) (m : MetadataCache) (s : LookupState) :
    (m.descriptorFor t p s).2.1.get? q =
      if q.components = p.components then some (m.descriptorFor t p s).1 else m.get? q := by
  rcases m.descriptorFor_cases t p s with ⟨d, hd, he⟩ | ⟨-, he, hkeep, -⟩
  · rw [he]
    split
    · rename_i hc
      rwa [get?, hc, ← get?]
    · rfl
  · rw [he, hkeep, get?_keep]

/-- Asking for a descriptor opens no view. -/
theorem archives_descriptorFor (t : FileTree) (p : Path) (m : MetadataCache) (s : LookupState) :
    (m.descriptorFor t p s).2.2.archives = s.archives := by
  rcases m.descriptorFor_cases t p s with ⟨d, hd, he⟩ | ⟨-, -, -, he⟩
  · rw [he]
  · exact he

/-- Asking for a descriptor changes the kept ones only. -/
theorem settings_descriptorFor (t : FileTree) (p : Path) (m : MetadataCache) (s : LookupState) :
    ∃ ds, (m.descriptorFor t p s).2.1 = { m with descriptors := ds } := by
  rcases m.descriptorFor_cases t p s with ⟨d, hd, he⟩ | ⟨-, -, he, -⟩
  · exact ⟨m.descriptors, by rw [he]⟩
  · exact ⟨_, he⟩

end MetadataCache

namespace Pipeline

variable {φ β α : Type} {b : Blueprint φ β} {t : FileTree} {os : List Origin}
  {s s' : Pipeline φ β}

/-- The same pipeline with other descriptors and notices. -/
def twin (m : MetadataCache) (j : Journal) (s : Pipeline φ β) : Pipeline φ β :=
  { s with metadata := m, lookups := s.lookups.withJournal j }

/-- The descriptor that is answered is the kept one, or the one that is read now. -/
theorem descriptorFor_fst (t : FileTree) (p : Path) (s : Pipeline φ β) :
    (s.descriptorFor t p).1 =
      (s.metadata.get? p).getD (s.metadata.fresh t s.lookups.archives p) :=
  s.metadata.descriptorFor_fst t p s.lookups

/-- Asking for a descriptor changes descriptors and notices only: it is kept from then on. -/
theorem exists_twin_descriptorFor (t : FileTree) (p : Path) (s : Pipeline φ β) :
    ∃ ds j, s.descriptorFor t p =
        ((s.descriptorFor t p).1, s.twin { s.metadata with descriptors := ds } j) ∧
      ∀ q : Path, ds.get? q.components =
        if q.components = p.components then some (s.descriptorFor t p).1
        else s.metadata.get? q := by
  obtain ⟨ds, hs⟩ := s.metadata.settings_descriptorFor t p s.lookups
  have hget := s.metadata.get?_descriptorFor t p (s := s.lookups)
  have harchives := s.metadata.archives_descriptorFor t p s.lookups
  unfold descriptorFor
  generalize s.metadata.descriptorFor t p s.lookups = r at hs hget harchives
  obtain ⟨d, m, archives, j⟩ := r
  obtain rfl : m = _ := hs
  obtain rfl : archives = _ := harchives
  exact ⟨ds, j, rfl, hget⟩

/-- A descriptor that was asked for once is answered again, also by another path with the same
components and on other files. -/
theorem descriptorFor_again (t t' : FileTree) {p q : Path} (h : q.components = p.components)
    (s : Pipeline φ β) :
    ((s.descriptorFor t p).2.descriptorFor t' q).1 = (s.descriptorFor t p).1 := by
  have hkept : (s.descriptorFor t p).2.metadata.get? q = some (s.descriptorFor t p).1 := by
    change (s.metadata.descriptorFor t p s.lookups).2.1.get? q = _
    rw [MetadataCache.get?_descriptorFor, if_pos h]
    rfl
  rw [descriptorFor_fst, hkept, Option.getD_some]

/-- A pipeline is ahead of another one in reading the descriptors of some origins. -/
structure Ahead (t : FileTree) (os : List Origin) (s s' : Pipeline φ β) : Prop where
  /-- The pipelines differ in descriptors and notices only. -/
  same : s' = s.twin s'.metadata s'.lookups.journal
  /-- Both look for descriptors in the same place. -/
  settings : ∃ ds, s'.metadata = { s.metadata with descriptors := ds }
  /-- A descriptor that only one of them has is what the other one would read now. -/
  descriptors : ∀ q, s'.metadata.get? q = s.metadata.get? q ∨
    s.metadata.get? q = none ∧ ∃ o ∈ os, o.location.components = q.components ∧
      s'.metadata.get? q = some (s.metadata.fresh t s.lookups.archives o.location)
  /-- The registered origins are known by real paths. -/
  real : s.registry.IsReal
  /-- The origins are registered, and known by real paths. -/
  registered : ∀ o ∈ os, o.location.IsReal ∧ s.registry.contains o.location = true

/-- Two operations give the same answer, and one pipeline stays ahead of the other. -/
inductive Agrees (t : FileTree) (os : List Origin) :
    α × Pipeline φ β → α × Pipeline φ β → Prop
  /-- The answer and the two pipelines. -/
  | intro (a : α) {s s' : Pipeline φ β} (ahead : Ahead t os s s') : Agrees t os (a, s) (a, s')

namespace Ahead

/-- A pipeline is ahead of itself. -/
theorem refl (hreal : s.registry.IsReal)
    (hos : ∀ o ∈ os, o.location.IsReal ∧ s.registry.contains o.location = true) :
    Ahead t os s s where
  same := rfl
  settings := ⟨s.metadata.descriptors, rfl⟩
  descriptors _ := Or.inl rfl
  real := hreal
  registered := hos

theorem exists_twin (h : Ahead t os s s') : ∃ m j, s' = s.twin m j := ⟨_, _, h.same⟩

/-- Both would read the same descriptor now. -/
theorem fresh_eq (h : Ahead t os s s') (a : ArchiveTable) (p : Path) :
    s'.metadata.fresh t a p = s.metadata.fresh t a p := by
  obtain ⟨ds, hs⟩ := h.settings
  rw [hs]
  rfl

theorem registry_eq (h : Ahead t os s s') : s'.registry = s.registry := by
  rw [h.same]
  rfl

theorem provenance_eq (h : Ahead t os s s') : s'.provenance = s.provenance := by
  rw [h.same]
  rfl

theorem defined_eq (h : Ahead t os s s') : s'.defined = s.defined := by
  rw [h.same]
  rfl

theorem archives_eq (h : Ahead t os s s') : s'.lookups.archives = s.lookups.archives := by
  rw [h.same]
  rfl

/-- A path with the components of one of the origins is canonical if it is real. -/
theorem canonical (h : Ahead t os s s') {p : Path} (hp : p.IsReal) : Origin.Canonical os p :=
  fun o ho hc => (h.registered o ho).1.eq_of_components hp hc

/-- A path outside the registry is canonical. -/
theorem canonical_of_unregistered (h : Ahead t os s s') {p : Path}
    (hp : s.registry.contains p = false) : Origin.Canonical os p := by
  intro o ho hc
  rw [Registry.contains_congr _ hc.symm, (h.registered o ho).2] at hp
  cases hp

/-- Both may do what reads no descriptors. The views that are opened show registered origins. -/
theorem moves {m : MetadataCache} {j : Journal} (h : Ahead t os s (s.twin m j))
    (s₁ : Pipeline φ β) (hm : s₁.metadata = s.metadata)
    (hviews : s.lookups.archives.Opens t s.registry.order s₁.lookups.archives)
    (hreal : s₁.registry.IsReal)
    (hcontains : ∀ p, s.registry.contains p = true → s₁.registry.contains p = true)
    (j' : Journal) : Ahead t os s₁ (s₁.twin m j') where
  same := rfl
  settings := by
    rw [hm]
    exact h.settings
  descriptors q := by
    rw [hm]
    refine (h.descriptors q).imp_right ?_
    rintro ⟨hn, o, ho, hc, hd⟩
    refine ⟨hn, o, ho, hc, ?_⟩
    rw [MetadataCache.fresh_opens hviews]
    · exact hd
    · intro o' ho' hc'
      exact (h.real o' ho').eq_of_components (h.registered o ho).1 hc'
  real := hreal
  registered o ho := (h.registered o ho).imp_right (hcontains _)

/-- Both may do what reads no descriptors and registers nothing, with the same answer. -/
theorem agrees {m : MetadataCache} {j : Journal} (h : Ahead t os s (s.twin m j)) (j' : Journal)
    {r r' : α × Pipeline φ β} (he : r' = (r.1, r.2.twin m j'))
    (hm : r.2.metadata = s.metadata) (hr : r.2.registry = s.registry)
    (hviews : s.lookups.archives.Opens t s.registry.order r.2.lookups.archives) :
    Agrees t os r r' := by
  rw [he]
  exact .intro r.1 (h.moves r.2 hm hviews (hr ▸ h.real) (fun p hp => hr ▸ hp) j')

/-- Both may change what concerns neither descriptors nor views nor the registry. -/
theorem map (h : Ahead t os s s') {f : Pipeline φ β → Pipeline φ β}
    (htwin : ∀ m j, f (s.twin m j) = (f s).twin m j) (hm : (f s).metadata = s.metadata)
    (hr : (f s).registry = s.registry) (hl : (f s).lookups = s.lookups) :
    Ahead t os (f s) (f s') := by
  obtain ⟨m, j, rfl⟩ := h.exists_twin
  rw [htwin]
  exact h.moves (f s) hm (hl ▸ .refl t _ _) (hr ▸ h.real) (fun p hp => hr ▸ hp) j

/-- Each may leave a notice. -/
theorem note (h : Ahead t os s s') (n : Notice) : Ahead t os (s.note n) (s'.note n) := by
  obtain ⟨m, j, rfl⟩ := h.exists_twin
  exact h.moves (s.note n) rfl (.refl t _ _) h.real (fun _ hp => hp) (j ++ [n])

/-- Both answer with the same descriptor, if it is asked for by a canonical path. -/
theorem descriptor_eq (h : Ahead t os s s') {p : Path} (hp : Origin.Canonical os p) :
    (s'.descriptorFor t p).1 = (s.descriptorFor t p).1 := by
  change (s'.metadata.descriptorFor t p s'.lookups).1 = (s.metadata.descriptorFor t p s.lookups).1
  rw [MetadataCache.descriptorFor_fst, MetadataCache.descriptorFor_fst, h.archives_eq, h.fresh_eq]
  rcases h.descriptors p with hsame | ⟨hn, o, ho, hc, hd⟩
  · rw [hsame]
  · rw [hd, hn, hp o ho hc]
    rfl

/-- Both may keep other descriptors, as long as those that only one of them has are what the other
one would read. -/
theorem redescribe (h : Ahead t os s s') (ds ds' : Table PathKey Descriptor) (j j' : Journal)
    (hd : ∀ q : Path, ds'.get? q.components = ds.get? q.components ∨
      ds.get? q.components = none ∧ ∃ o ∈ os, o.location.components = q.components ∧
        ds'.get? q.components = some (s.metadata.fresh t s.lookups.archives o.location)) :
    Ahead t os (s.twin { s.metadata with descriptors := ds } j)
      (s'.twin { s'.metadata with descriptors := ds' } j') := by
  obtain ⟨m, k, rfl⟩ := h.exists_twin
  obtain ⟨ds'', hs⟩ := h.settings
  replace hs : m = { s.metadata with descriptors := ds'' } := hs
  exact ⟨rfl, ⟨ds', by rw [show (s.twin m k).metadata = m from rfl, hs]; rfl⟩, hd, h.real,
    h.registered⟩

/-- If both are asked for a descriptor by a canonical path, they give the same one, and one is still
ahead of the other. -/
theorem descriptorFor (h : Ahead t os s s') {p : Path} (hp : Origin.Canonical os p) :
    Agrees t os (s.descriptorFor t p) (s'.descriptorFor t p) := by
  have hanswer := h.descriptor_eq hp
  obtain ⟨ds, j, he, hget⟩ := s.exists_twin_descriptorFor t p
  obtain ⟨ds', j', he', hget'⟩ := s'.exists_twin_descriptorFor t p
  rw [he, he', hanswer]
  refine .intro _ (h.redescribe ds ds' j j' fun q => ?_)
  rw [hget, hget', hanswer]
  by_cases hc : q.components = p.components
  · simp [hc]
  · rw [if_neg hc, if_neg hc]
    exact h.descriptors q

/-- If only the one that is ahead is asked for the descriptor of one of the origins, it gives what
the other one would give, and is still ahead. -/
theorem warms (h : Ahead t os s s') {o : Origin} (ho : o ∈ os) :
    (s'.descriptorFor t o.location).1 = (s.descriptorFor t o.location).1 ∧
      Ahead t os s (s'.descriptorFor t o.location).2 := by
  have hanswer := h.descriptor_eq (h.canonical (h.registered o ho).1)
  obtain ⟨ds', j', he', hget'⟩ := s'.exists_twin_descriptorFor t o.location
  refine ⟨hanswer, ?_⟩
  rw [he']
  refine h.redescribe s.metadata.descriptors ds' s.lookups.journal j' fun q => ?_
  rw [hget', hanswer]
  by_cases hc : q.components = o.location.components
  · rw [if_pos hc]
    change _ = s.metadata.get? q ∨ s.metadata.get? q = none ∧ _
    have hq : s.metadata.get? q = s.metadata.get? o.location := by
      rw [MetadataCache.get?, MetadataCache.get?, hc]
    rw [hq, Pipeline.descriptorFor_fst]
    cases s.metadata.get? o.location with
    | some d => exact Or.inl rfl
    | none => exact Or.inr ⟨rfl, o, ho, hc.symm, rfl⟩
  · rw [if_neg hc]
    exact h.descriptors q

/-- Both find the same copy in the registered origins. -/
theorem resolveRegistered (h : Ahead t os s s') (resource : String) :
    Agrees t os (s.resolveRegistered t resource) (s'.resolveRegistered t resource) := by
  obtain ⟨m, j, rfl⟩ := h.exists_twin
  obtain ⟨j', he⟩ := Registry.resolveIn_withJournal t resource s.registry.order s.lookups j
  have hviews := s.registry.opens_resolve? t resource s.lookups
  refine h.agrees j' ?_ rfl rfl hviews
  unfold Pipeline.resolveRegistered Registry.resolve?
  rw [show (s.twin m j).registry = s.registry from rfl,
    show (s.twin m j).lookups = s.lookups.withJournal j from rfl, he]
  rfl

/-- Both find the same copy in the fallback loader. -/
theorem resolveFallback (h : Ahead t os s s') (b : Blueprint φ β) (resource : String) :
    Agrees t os (s.resolveFallback b t resource) (s'.resolveFallback b t resource) := by
  obtain ⟨m, j, rfl⟩ := h.exists_twin
  exact h.agrees j rfl rfl rfl (.refl t _ _)

/-- Both get the same symbol from the fallback loader. -/
theorem askFallback (h : Ahead t os s s') (b : Blueprint φ β) (name : String) :
    Agrees t os (s.askFallback b t name) (s'.askFallback b t name) := by
  obtain ⟨m, j, rfl⟩ := h.exists_twin
  exact h.agrees j rfl rfl rfl (.refl t _ _)

/-- Both get the same symbol from the bootstrap loader. -/
theorem askBootstrap (h : Ahead t os s s') (b : Blueprint φ β) (name : String) :
    Agrees t os (s.askBootstrap b t name) (s'.askBootstrap b t name) := by
  obtain ⟨m, j, rfl⟩ := h.exists_twin
  exact h.agrees j rfl rfl rfl (.refl t _ _)

/-- Both report a missing symbol. -/
theorem orMissing (b : Blueprint φ β) (name : String) {r r' : Option Symbol × Pipeline φ β}
    (h : Agrees t os r r') :
    Agrees t os (Pipeline.orMissing b name r) (Pipeline.orMissing b name r') := by
  obtain ⟨found, h⟩ := h
  cases found with
  | some x => exact .intro _ h
  | none =>
    simp only [Pipeline.orMissing]
    by_cases hdebug : b.config.debugLookups = true
    · simp only [hdebug, if_true]
      exact .intro _ (h.note _)
    · simp only [hdebug, Bool.false_eq_true, if_false]
      exact .intro _ h

theorem fetchFallback (h : Ahead t os s s') (b : Blueprint φ β) (name : String) :
    Agrees t os (s.fetchFallback b t name) (s'.fetchFallback b t name) := by
  have hcopy := h.resolveFallback b (SymbolName.resource name b.config.resourceSuffix)
  unfold Pipeline.fetchFallback
  dsimp only
  generalize s.resolveFallback b t (SymbolName.resource name b.config.resourceSuffix) = r,
    s'.resolveFallback b t (SymbolName.resource name b.config.resourceSuffix) = r' at hcopy ⊢
  obtain ⟨copy, h₁⟩ := hcopy
  cases copy with
  | none => exact .intro _ h₁
  | some found =>
    dsimp only
    rw [h₁.registry_eq]
    split
    · exact .intro _ (h₁.note _)
    · exact .intro _ h₁

/-- Both fetch the same raw definition. -/
theorem fetch (h : Ahead t os s s') (b : Blueprint φ β) (name : String) (allowed : Bool) :
    Agrees t os (s.fetch b t name allowed) (s'.fetch b t name allowed) := by
  have hfound := h.resolveRegistered (SymbolName.resource name b.config.resourceSuffix)
  unfold Pipeline.fetch
  generalize s.resolveRegistered t (SymbolName.resource name b.config.resourceSuffix) = r,
    s'.resolveRegistered t (SymbolName.resource name b.config.resourceSuffix) = r' at hfound ⊢
  obtain ⟨found, h₁⟩ := hfound
  rcases found with e | _ | ⟨o, found⟩
  · exact .intro _ h₁
  · dsimp only
    split
    · exact h₁.fetchFallback b name
    · exact .intro _ h₁
  · exact .intro _ h₁

/-- Both transform a definition alike. -/
theorem transform (h : Ahead t os s s') (b : Blueprint φ β) (name : String) (bytes : ByteArray) :
    Agrees t os (s.transform b name bytes) (s'.transform b name bytes) := by
  have hlog : Ahead t os { s with transformed := s.transformed ++ [(name, bytes)] }
      { s' with transformed := s'.transformed ++ [(name, bytes)] } :=
    h.map (f := fun s => { s with transformed := s.transformed ++ [(name, bytes)] })
      (fun _ _ => rfl) rfl rfl rfl
  obtain ⟨m, j, rfl⟩ := h.exists_twin
  unfold Pipeline.transform
  rw [show (s.twin m j).transformer = s.transformer from rfl,
    show (s.twin m j).transformed = s.transformed from rfl]
  split
  · exact .intro _ h
  · split
    · dsimp only
      split
      · exact .intro _ hlog
      · exact .intro _ (hlog.note _)
    · exact .intro _ h

/-- A raw definition comes from a canonical path, if from any. -/
theorem canonical_of_fetch (h : Ahead t os s s') {name : String} {allowed : Bool} {f : Fetched}
    (hf : (s.fetch b t name allowed).1 = .ok (some f)) {p : Path} (hp : f.codeSource = some p) :
    Origin.Canonical os p := by
  rcases fetch_eq_some_iff.1 hf with ⟨o, r, hfound, rfl⟩ | ⟨-, -, r, -, hs, rfl⟩
  · obtain rfl := Option.some.inj hp
    exact h.canonical (h.real o (Registry.mem_of_resolveIn (Prod.ext hfound rfl)))
  · apply h.canonical_of_unregistered
    unfold Registry.isShadowed at hs
    rw [show r.location.codeSource? t _ = some p from hp] at hs
    exact hs

/-- Both enter a symbol. -/
theorem insertSymbol (h : Ahead t os s s') (x : Symbol) :
    Agrees t os (s.insertSymbol x) (s'.insertSymbol x) := by
  obtain ⟨m, j, rfl⟩ := h.exists_twin
  exact h.agrees j rfl rfl rfl (.refl t _ _)

theorem markFetched (h : Ahead t os s s') (name : String) (f : Fetched) :
    Ahead t os (s.markFetched name f) (s'.markFetched name f) := by
  unfold Pipeline.markFetched
  split
  · exact h.map (f := Pipeline.mark name) (fun _ _ => rfl) rfl rfl rfl
  · exact h

theorem noteNamespace (h : Ahead t os s s') (name : String) :
    Ahead t os (s.noteNamespace name) (s'.noteNamespace name) := by
  obtain ⟨m, j, rfl⟩ := h.exists_twin
  unfold Pipeline.noteNamespace
  rw [show (s.twin m j).namespaces = s.namespaces from rfl]
  split
  · exact h
  · split
    · exact h
    · rename_i ns _ _
      exact h.map (f := fun s => { s with namespaces := ns :: s.namespaces }) (fun _ _ => rfl) rfl
        rfl rfl

/-- Both define the same symbol. -/
theorem define (h : Ahead t os s s') (name : String) {f : Fetched}
    (hf : ∀ p, f.codeSource = some p → Origin.Canonical os p) (bytes : ByteArray) :
    Agrees t os (s.define t name f bytes) (s'.define t name f bytes) := by
  have hmarked := h.markFetched name f
  have hdescribed : Agrees t os ((s.markFetched name f).describe t f.codeSource)
      ((s'.markFetched name f).describe t f.codeSource) := by
    cases hsource : f.codeSource with
    | none => exact .intro _ hmarked
    | some p => exact hmarked.descriptorFor (hf p hsource)
  unfold Pipeline.define
  generalize (s.markFetched name f).describe t f.codeSource = r,
    (s'.markFetched name f).describe t f.codeSource = r' at hdescribed ⊢
  obtain ⟨d, h₁⟩ := hdescribed
  exact (h₁.noteNamespace name).insertSymbol _

/-- Both define a name alike, if they can. -/
theorem tryDefine (h : Ahead t os s s') (b : Blueprint φ β) (name : String) (allowed : Bool) :
    Agrees t os (s.tryDefine b t name allowed) (s'.tryDefine b t name allowed) := by
  have hfetched := h.fetch b name (allowed || s.provenance.isFallbackSourced name)
  have hsource : ∀ f p,
      (s.fetch b t name (allowed || s.provenance.isFallbackSourced name)).1 = .ok (some f) →
      f.codeSource = some p → Origin.Canonical os p :=
    fun _ _ hf hp => h.canonical_of_fetch hf hp
  unfold Pipeline.tryDefine
  rw [h.provenance_eq]
  generalize s.fetch b t name (allowed || s.provenance.isFallbackSourced name) = r,
    s'.fetch b t name (allowed || s.provenance.isFallbackSourced name) = r'
    at hfetched hsource ⊢
  obtain ⟨fetched, h₁⟩ := hfetched
  rcases fetched with e | _ | f
  · exact .intro _ h₁
  · exact .intro _ h₁
  · have hmade := h₁.transform b name f.bytes
    rename_i s₁ s₁'
    dsimp only
    generalize s₁.transform b name f.bytes = r, s₁'.transform b name f.bytes = r' at hmade ⊢
    obtain ⟨made, h₂⟩ := hmade
    cases made with
    | error e => exact .intro _ h₂
    | ok bytes =>
      have hdefined := h₂.define name (fun p hp => hsource f p rfl hp) bytes
      rename_i s₂ s₂'
      dsimp only
      generalize s₂.define t name f bytes = r, s₂'.define t name f bytes = r' at hdefined ⊢
      obtain ⟨x, h₃⟩ := hdefined
      exact .intro _ h₃

/-- Both delegate a name alike. -/
theorem delegate (h : Ahead t os s s') (b : Blueprint φ β) (name : String) :
    Agrees t os (s.delegate b t name) (s'.delegate b t name) := by
  have hcopy := h.resolveFallback b (SymbolName.resource name b.config.resourceSuffix)
  unfold Pipeline.delegate
  dsimp only
  generalize s.resolveFallback b t (SymbolName.resource name b.config.resourceSuffix) = r,
    s'.resolveFallback b t (SymbolName.resource name b.config.resourceSuffix) = r' at hcopy ⊢
  obtain ⟨copy, h₁⟩ := hcopy
  cases copy with
  | none => exact orMissing b name (h₁.askBootstrap b name)
  | some found =>
    dsimp only
    rw [h₁.registry_eq]
    split
    · exact .intro _ (h₁.note _)
    · exact orMissing b name (h₁.askFallback b name)

/-- Both load the same symbol. -/
theorem loadDotted (h : Ahead t os s s') (b : Blueprint φ β) (name : String) (allowed : Bool) :
    Agrees t os (s.loadDotted b t name allowed) (s'.loadDotted b t name allowed) := by
  have hdefined := h.tryDefine b name allowed
  unfold Pipeline.loadDotted
  rw [h.defined_eq]
  cases s.defined.get? name with
  | some x => exact .intro _ h
  | none =>
    dsimp only
    split
    · exact orMissing b name (h.askFallback b name)
    · split
      · exact orMissing b name (h.askBootstrap b name)
      · generalize s.tryDefine b t name allowed = r, s'.tryDefine b t name allowed = r'
          at hdefined ⊢
        obtain ⟨result, h₁⟩ := hdefined
        rcases result with e | _ | x
        · exact .intro _ h₁
        · exact h₁.delegate b name
        · exact .intro _ h₁

/-- Both find the same place of a resource in the registered origins. -/
theorem find? (h : Ahead t os s s') (resource : String) :
    Agrees t os
      ((s.registry.find? t resource s.lookups).1,
        { s with lookups := (s.registry.find? t resource s.lookups).2 })
      ((s'.registry.find? t resource s'.lookups).1,
        { s' with lookups := (s'.registry.find? t resource s'.lookups).2 }) := by
  obtain ⟨m, j, rfl⟩ := h.exists_twin
  obtain ⟨j', he⟩ := Registry.findIn_withJournal t resource s.registry.order s.lookups j
  refine h.agrees j' ?_ rfl rfl (s.registry.opens_find? t resource s.lookups)
  unfold Registry.find?
  rw [show (s.twin m j).registry = s.registry from rfl,
    show (s.twin m j).lookups = s.lookups.withJournal j from rfl, he]
  rfl

/-- Both find the same places of a resource in the registered origins. -/
theorem findAll (h : Ahead t os s s') (resource : String) :
    Agrees t os
      ((s.registry.findAll t resource s.lookups).1,
        { s with lookups := (s.registry.findAll t resource s.lookups).2 })
      ((s'.registry.findAll t resource s'.lookups).1,
        { s' with lookups := (s'.registry.findAll t resource s'.lookups).2 }) := by
  obtain ⟨m, j, rfl⟩ := h.exists_twin
  obtain ⟨j', he⟩ := Registry.findAllIn_withJournal t resource s.registry.order s.lookups j
  refine h.agrees j' ?_ rfl rfl (s.registry.opens_findAll t resource s.lookups)
  unfold Registry.findAll
  rw [show (s.twin m j).registry = s.registry from rfl,
    show (s.twin m j).lookups = s.lookups.withJournal j from rfl, he]
  rfl

/-- Both find the same place of a resource. -/
theorem resource (h : Ahead t os s s') (b : Blueprint φ β) (name : String) :
    Agrees t os (s.resource b t name) (s'.resource b t name) := by
  have hfound := h.find? name
  unfold Pipeline.resource
  generalize s.registry.find? t name s.lookups = r,
    s'.registry.find? t name s'.lookups = r' at hfound ⊢
  obtain ⟨found, lookups⟩ := r
  obtain ⟨found', lookups'⟩ := r'
  obtain ⟨_, h₁⟩ := hfound
  cases found with
  | some l => exact .intro _ h₁
  | none =>
    have hcopy := h₁.resolveFallback b name
    dsimp only at hcopy ⊢
    generalize ({ s with lookups } : Pipeline φ β).resolveFallback b t name = r,
      ({ s' with lookups := lookups' } : Pipeline φ β).resolveFallback b t name = r' at hcopy ⊢
    obtain ⟨copy, h₂⟩ := hcopy
    exact .intro _ h₂

/-- Both find the same places of a resource. -/
theorem resources (h : Ahead t os s s') (b : Blueprint φ β) (name : String) :
    Agrees t os (s.resources b t name) (s'.resources b t name) := by
  have hfound := h.findAll name
  obtain ⟨m, j, rfl⟩ := h.exists_twin
  unfold Pipeline.resources
  generalize s.registry.findAll t name s.lookups = r,
    (s.twin m j).registry.findAll t name (s.twin m j).lookups = r' at hfound ⊢
  obtain ⟨found, lookups⟩ := r
  obtain ⟨found', lookups'⟩ := r'
  obtain ⟨_, h₁⟩ := hfound
  cases found with
  | nil =>
    exact .intro _ (h₁.map
      (f := fun s₁ => { s₁ with fallback := (b.fallback.resolveAll t name s.fallback).2 })
      (fun _ _ => rfl) rfl rfl rfl)
  | cons l ls => exact .intro _ h₁

/-- Both read the same content of a resource. -/
theorem resourceBytes (h : Ahead t os s s') (b : Blueprint φ β) (name : String) :
    Agrees t os (s.resourceBytes b t name) (s'.resourceBytes b t name) := by
  have hfound := h.resolveRegistered name
  unfold Pipeline.resourceBytes
  generalize s.resolveRegistered t name = r, s'.resolveRegistered t name = r' at hfound ⊢
  obtain ⟨found, h₁⟩ := hfound
  rcases found with e | _ | found
  · exact .intro _ h₁
  · have hcopy := h₁.resolveFallback b name
    rename_i s₁ s₁'
    dsimp only
    generalize s₁.resolveFallback b t name = r, s₁'.resolveFallback b t name = r' at hcopy ⊢
    obtain ⟨copy, h₂⟩ := hcopy
    exact .intro _ h₂
  · exact .intro _ h₁

/-- Both tell the same raw definition. -/
theorem rawBytes (h : Ahead t os s s') (b : Blueprint φ β) (name : String) :
    Agrees t os (s.rawBytes b t name) (s'.rawBytes b t name) := by
  have hfetched := h.fetch b (SymbolName.dotted name) true
  unfold Pipeline.rawBytes
  generalize s.fetch b t (SymbolName.dotted name) true = r,
    s'.fetch b t (SymbolName.dotted name) true = r' at hfetched ⊢
  obtain ⟨fetched, h₁⟩ := hfetched
  cases fetched <;> exact .intro _ h₁

/-- Both tell the same definition. -/
theorem symbolBytes (h : Ahead t os s s') (b : Blueprint φ β) (name : String)
    (transformed : Bool) :
    Agrees t os (s.symbolBytes b t name transformed) (s'.symbolBytes b t name transformed) := by
  have hfetched := h.fetch b (SymbolName.dotted name) true
  unfold Pipeline.symbolBytes
  generalize s.fetch b t (SymbolName.dotted name) true = r,
    s'.fetch b t (SymbolName.dotted name) true = r' at hfetched ⊢
  obtain ⟨fetched, h₁⟩ := hfetched
  rcases fetched with e | _ | f
  · exact .intro _ h₁
  · exact .intro _ h₁
  · have hmade := h₁.transform b (SymbolName.dotted name) f.bytes
    rename_i s₁ s₁'
    dsimp only
    split
    · generalize s₁.transform b (SymbolName.dotted name) f.bytes = r,
        s₁'.transform b (SymbolName.dotted name) f.bytes = r' at hmade ⊢
      obtain ⟨made, h₂⟩ := hmade
      cases made <;> exact .intro _ h₂
    · exact .intro _ h₁

/-- Both register an origin alike. -/
theorem registerOrigin (h : Ahead t os s s') (hw : t.HasRealWorkingDirectory) (p : Path)
    (tag : Option OriginTag) :
    Agrees t os (s.registerOrigin t p tag) (s'.registerOrigin t p tag) := by
  obtain ⟨m, j, rfl⟩ := h.exists_twin
  exact .intro _ (h.moves (s.registerOrigin t p tag).2 rfl (.refl t _ _)
    (h.real.register hw p tag s.tags)
    (fun q hq => Registry.contains_register hq t p tag s.tags) j)

/-- Both install a transformer alike. -/
theorem install (h : Ahead t os s s') (tr : Transformer) :
    Agrees t os (s.install tr) (s'.install tr) := by
  obtain ⟨m, j, rfl⟩ := h.exists_twin
  unfold Pipeline.install
  rw [show (s.twin m j).transformer = s.transformer from rfl]
  split
  · exact .intro _ h
  · exact .intro _ (h.map (f := fun s => { s with transformer := some tr }) (fun _ _ => rfl) rfl
      rfl rfl)

end Ahead

end Pipeline

/-- Both carry out a request alike, if the descriptor that it asks for is named by a canonical
path. -/
theorem Request.run_ahead {φ β : Type} {t : FileTree} {os : List Origin} {s s' : Pipeline φ β}
    (h : Pipeline.Ahead t os s s') (hw : t.HasRealWorkingDirectory) (b : Blueprint φ β)
    {r : Request} (hp : ∀ p, r = .descriptor p → Origin.Canonical os p) :
    Pipeline.Agrees t os (r.run b t s) (r.run b t s') := by
  have hanswer {α : Type} {r r' : α × Pipeline φ β} (f : α → Answer)
      (h : Pipeline.Agrees t os r r') : Pipeline.Agrees t os (f r.1, r.2) (f r'.1, r'.2) := by
    obtain ⟨a, h⟩ := h
    exact .intro _ h
  cases r with
  | register p tag => exact hanswer .registered (h.registerOrigin hw p tag)
  | install tr => exact hanswer .installed (h.install tr)
  | load name allowed =>
    rw [run_load, run_load]
    exact hanswer .symbol (h.loadDotted b (SymbolName.dotted name) allowed)
  | isLoaded name =>
    have hloaded : s'.isLoaded name = s.isLoaded name := by
      unfold Pipeline.isLoaded
      rw [h.defined_eq]
    change Pipeline.Agrees t os (Answer.isLoaded (s.isLoaded name), s)
      (Answer.isLoaded (s'.isLoaded name), s')
    rw [hloaded]
    exact .intro _ h
  | resource name => exact hanswer .location (h.resource b name)
  | resourceBytes name => exact hanswer .bytes (h.resourceBytes b name)
  | resources name => exact hanswer .locations (h.resources b name)
  | rawBytes name => exact hanswer .bytes (h.rawBytes b name)
  | symbolBytes name transformed => exact hanswer .bytes (h.symbolBytes b name transformed)
  | descriptor p => exact hanswer .descriptor (h.descriptorFor (hp p rfl))
  | mark name => exact .intro _ (h.map (f := Pipeline.mark name) (fun _ _ => rfl) rfl rfl rfl)

end Overlay
