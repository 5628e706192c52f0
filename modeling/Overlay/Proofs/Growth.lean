import Overlay.Proofs.Concord

/-!
# Registering only extends the search path

A new origin goes to the end of the order. While the files stay as they are, a resource that was
found before is found at the same place, a copy that was read is read again, and so fails a copy
that could not be read; the list of all places goes on with those in the new origins. What is tried
in vain or for a second time changes no answer at all.
-/

namespace Overlay

/-- A search that ends among the first elements does not come to the others. -/
theorem findSomeM?_append_of_ne {α β ε : Type} {f : α → Except ε (Option β)} {xs : List α}
    (h : xs.findSomeM? f ≠ .ok none) (ys : List α) :
    (xs ++ ys).findSomeM? f = xs.findSomeM? f := by
  induction xs with
  | nil => exact absurd rfl h
  | cons x xs ih =>
    rw [List.findSomeM?_cons] at h
    rw [List.cons_append, List.findSomeM?_cons, List.findSomeM?_cons]
    generalize f x = answer at h ⊢
    rcases answer with e | _ | b
    · rfl
    · exact ih h
    · rfl

/-- Views of some origins are views of more origins. -/
theorem ArchiveTable.Opens.mono {t : FileTree} {os os' : List Origin} {a a' : ArchiveTable}
    (h : a.Opens t os a') (hos : os ⊆ os') : a.Opens t os' a' where
  kept := h.kept
  opened q i hn hi := by
    obtain ⟨o, ho, hview⟩ := h.opened q i hn hi
    exact ⟨o, hos ho, hview⟩

namespace Registry

/-- With some origins added at its end a registry still gives the answers that it gave. -/
structure Prolongs (t : FileTree) (r : Registry) (s : LookupState) (added : List Origin)
    (r' : Registry) (s' : LookupState) : Prop where
  /-- The new origins come last. -/
  order_eq : r'.order = r.order ++ added
  /-- What was read, or could not be read, stays so. -/
  resolve?_eq : ∀ resource, (r.resolve? t resource s).1 ≠ .ok none →
    (r'.resolve? t resource s').1 = (r.resolve? t resource s).1
  /-- What was found stays where it was found. -/
  find?_eq : ∀ resource l, (r.find? t resource s).1 = some l →
    (r'.find? t resource s').1 = some l
  /-- The list of places goes on with one place in each new origin that has the resource. -/
  findAll_eq : ∀ resource, (r'.findAll t resource s').1 = (r.findAll t resource s).1 ++
    (added.filter fun o => (o.holds t resource s').1).map (·.locate resource)
  /-- A registered location stays registered. -/
  contains_of : ∀ p, r.contains p = true → r'.contains p = true
  /-- What belonged to a registered origin still does. -/
  isShadowed_of : ∀ l resource, r.isShadowed t l resource = true →
    r'.isShadowed t l resource = true

/-- A registry gives the answers that it gave, and no others. -/
structure Unmoved (t : FileTree) (r : Registry) (s : LookupState) (r' : Registry)
    (s' : LookupState) : Prop where
  /-- The same is read, or cannot be read. -/
  resolve?_eq : ∀ resource, (r'.resolve? t resource s').1 = (r.resolve? t resource s).1
  /-- The same place is found. -/
  find?_eq : ∀ resource, (r'.find? t resource s').1 = (r.find? t resource s).1
  /-- The same places are listed. -/
  findAll_eq : ∀ resource, (r'.findAll t resource s').1 = (r.findAll t resource s).1
  /-- The same locations are registered. -/
  contains_eq : ∀ p, r'.contains p = r.contains p
  /-- The same belongs to registered origins. -/
  isShadowed_eq : ∀ l resource, r'.isShadowed t l resource = r.isShadowed t l resource

/-- What a registration answers and what it does to the answers of the registry. -/
inductive Registers (t : FileTree) (p : Path) (r : Registry) (s : LookupState)
    (answer : Except LoadError Bool) (r' : Registry) (s' : LookupState) : Prop
  /-- An origin that was not registered comes last. -/
  | new (o : Origin) (available : Origin.ofPath t p = .ok o)
      (unknown : r.contains o.location = false) (answered : answer = .ok true)
      (prolongs : r.Prolongs t s [o] r' s')
  /-- Else nothing changes. -/
  | old (known : ∀ o, Origin.ofPath t p = .ok o → r.contains o.location = true)
      (answered : answer ≠ .ok true) (unmoved : r.Unmoved t s r' s')

variable {t : FileTree} {r r' : Registry} {s s' : LookupState} {added : List Origin}

/-- A registry with the origins of another one and more after them prolongs it, through views of
its origins. -/
theorem Consistent.prolongs (hr : r.Consistent) (hr' : r'.Consistent)
    (horder : r'.order = r.order ++ added)
    (hopens : s.archives.Opens t r'.order s'.archives) : r.Prolongs t s added r' s' := by
  have hself : s.archives.Opens t r.order s.archives := .refl t r.order s.archives
  have hcontains (p : Path) (hp : r.contains p = true) : r'.contains p = true := by
    obtain ⟨o, ho, hlocation⟩ := (hr.contains_iff p).1 hp
    refine (hr'.contains_iff p).2 ⟨o, ?_, hlocation⟩
    rw [horder]
    exact List.mem_append_left added ho
  refine ⟨horder, ?resolved, ?found, ?listed, hcontains, ?shadowed⟩
  case resolved =>
    intro resource hne
    rw [hr.resolve?_fst hself] at hne ⊢
    rw [hr'.resolve?_fst hopens, horder]
    exact findSomeM?_append_of_ne hne added
  case found =>
    intro resource l hl
    rw [hr.find?_fst hself] at hl
    rw [hr'.find?_fst hopens, horder, List.find?_append, Option.map_or, hl, Option.some_or]
  case listed =>
    intro resource
    have hheld : ∀ o ∈ added, (o.holds t resource s').1 = o.shows t s.archives resource := by
      intro o ho
      refine hr'.holds_opened ?_ hopens resource
      rw [horder]
      exact List.mem_append_right r.order ho
    rw [hr'.findAll_fst hopens, hr.findAll_fst hself, horder, List.filter_append, List.map_append,
      List.filter_congr hheld]
  case shadowed =>
    intro l resource hl
    unfold isShadowed at hl ⊢
    cases hsource : l.codeSource? t resource with
    | none =>
      rw [hsource] at hl
      cases hl
    | some source =>
      rw [hsource] at hl
      exact hcontains source hl

/-- A registry that stays as it is answers as before. -/
theorem Consistent.unmoved (hr : r.Consistent)
    (hopens : s.archives.Opens t r.order s'.archives) : r.Unmoved t s r s' where
  resolve?_eq _ := hr.resolve?_opened hopens
  find?_eq _ := hr.find?_opened hopens
  findAll_eq _ := hr.findAll_opened hopens
  contains_eq _ := rfl
  isShadowed_eq _ _ := rfl

/-- Registering adds the origin that the path leads to at the end, and else changes nothing. -/
theorem register_outcome (t : FileTree) (p : Path) (tag : Option OriginTag) (r : Registry)
    (tags : TagStore) :
    (∃ o, Origin.ofPath t p = .ok o ∧ r.contains o.location = false ∧
      (r.register t p tag tags).1 = .ok true ∧ (r.register t p tag tags).2.1 = r.append o) ∨
      (∀ o, Origin.ofPath t p = .ok o → r.contains o.location = true) ∧
        (r.register t p tag tags).1 ≠ .ok true ∧ (r.register t p tag tags).2.1 = r := by
  simp only [← originAt_eq_ok_iff]
  rcases register_cases t p tag r tags with ⟨e, he, hresult⟩ | ⟨o, ho, hresult⟩
  · rw [he, hresult]
    exact Or.inr ⟨nofun, nofun, rfl⟩
  · rw [ho, hresult, insert_fst, insert_registry]
    cases hc : r.contains o.location with
    | true =>
      refine Or.inr ⟨fun o' ho' => ?_, nofun, rfl⟩
      obtain rfl := Except.ok.inj ho'
      exact hc
    | false => exact Or.inl ⟨o, rfl, hc, rfl, rfl⟩

/-- Registering prolongs a registry if it adds an origin, and else leaves all answers, whatever is
searched for before and after it. -/
theorem Consistent.registers (hr : r.Consistent) (t : FileTree) (s : LookupState) (p : Path)
    (tag : Option OriginTag) (tags : TagStore) (qs qs' : List (Search × String)) :
    let result := r.register t p tag tags
    r.Registers t p s result.1 result.2.1 (result.2.1.searched t qs' (r.searched t qs s)) := by
  intro result
  have hbefore := r.opens_searched t qs s
  have hafter := result.2.1.opens_searched t qs' (r.searched t qs s)
  rcases register_outcome t p tag r tags with
    ⟨o, available, unknown, answered, hresult⟩ | ⟨known, answered, hresult⟩
  · have hsub : r.order ⊆ result.2.1.order := by
      rw [hresult]
      exact List.subset_append_left r.order [o]
    exact .new o available unknown answered (hr.prolongs (hr.register t p tag tags)
      (congrArg order hresult) ((hbefore.mono hsub).trans hafter))
  · refine .old known answered ?_
    rw [show result.2.1 = r from hresult] at hafter ⊢
    exact hr.unmoved (hbefore.trans hafter)

end Registry

namespace SharedRegistry

variable {y y' : SharedRegistry}

/-- What a shared registry becomes while the files stay as they are. -/
structure Continues (y y' : SharedRegistry) : Prop where
  /-- The files are the same. -/
  tree_eq : y'.tree = y.tree
  /-- The registry agrees with its calls. -/
  sound : y'.Sound
  /-- The origins so far come first. -/
  order_prefix : y.registry.order <+: y'.registry.order
  /-- New views are those of registered origins. -/
  views : y.lookups.archives.Opens y.tree y'.registry.order y'.lookups.archives

/-- A call that moves leaves files, views and notices as they are. -/
theorem Moves.frame {i : Nat} {c : RegisterCall} (h : y.Moves i c y') :
    y'.tree = y.tree ∧ y'.lookups = y.lookups := by
  cases h <;> exact ⟨rfl, rfl⟩

/-- Without a change of the files, a step leaves them, and opens at most views of registered
origins. -/
theorem Sound.views_step (h : y.Sound) {a : RegistryAction} (ha : ∀ t, a ≠ .files t) :
    (y.step a).tree = y.tree ∧
      y.lookups.archives.Opens y.tree y.registry.order (y.step a).lookups.archives := by
  have hrefl : y.lookups.archives.Opens y.tree y.registry.order y.lookups.archives :=
    .refl y.tree y.registry.order y.lookups.archives
  cases a with
  | call | snapshot | tagElsewhere => exact ⟨rfl, hrefl⟩
  | files t => exact absurd rfl (ha t)
  | advance i =>
    cases hi : y.calls[i]? with
    | none =>
      rw [SharedRegistry.step, hi]
      exact ⟨rfl, hrefl⟩
    | some c =>
      obtain ⟨htree, hlookups⟩ := (moves_advance hi).frame
      rw [hlookups]
      exact ⟨htree, hrefl⟩
  | search k how resource =>
    cases hk : y.snapshots[k]? with
    | none =>
      rw [SharedRegistry.step, hk]
      exact ⟨rfl, hrefl⟩
    | some r =>
      rw [SharedRegistry.step, hk]
      -- a snapshot has only origins that are registered
      have hsnapshot := (h.snapshot r (List.mem_of_getElem? hk)).2
      exact ⟨rfl, (r.opens_searched y.tree [(how, resource)] y.lookups).mono hsnapshot.subset⟩

theorem Continues.step (h : y.Continues y') {a : RegistryAction} (ha : ∀ t, a ≠ .files t) :
    y.Continues (y'.step a) := by
  obtain ⟨htree, hviews⟩ := h.sound.views_step ha
  have hprefix := Extends.order_prefix (extends_step y' a)
  rw [h.tree_eq] at htree hviews
  exact ⟨htree, h.sound.step a, h.order_prefix.trans hprefix,
    (h.views.trans hviews).mono hprefix.subset⟩

/-- Whatever happens without a change of the files continues the registry. -/
theorem Sound.continues_run (h : y.Sound) {later : List RegistryAction}
    (hfiles : ∀ t, RegistryAction.files t ∉ later) : y.Continues (y.run later) := by
  have hstart : y.Continues y := ⟨rfl, h, List.prefix_rfl, .refl _ _ _⟩
  refine List.foldlRecOn (motive := y.Continues) later _ hstart fun y' hy' a ha => hy'.step ?_
  rintro t rfl
  exact hfiles t ha

/-- In every state that calls, snapshots, searches and changes of the files lead to, with any live
views, registering only extends the search path; and so does everything that happens later while
the files stay as they are, however the steps of calls mix. The first origin that has a resource
keeps serving it. -/
theorem prolongs_run (t₀ : FileTree) (as : List RegistryAction) (s : LookupState) :
    let y := { (start t₀).run as with lookups := s }
    (∀ p tag tags qs qs',
      let result := y.registry.register y.tree p tag tags
      y.registry.Registers y.tree p s result.1 result.2.1
        (result.2.1.searched y.tree qs' (y.registry.searched y.tree qs s))) ∧
      ∀ later, (∀ t, RegistryAction.files t ∉ later) →
        ∃ added, y.registry.Prolongs y.tree s added (y.run later).registry
          (y.run later).lookups := by
  intro y
  have hrun : ((start t₀).run as).Sound :=
    run_induction (sound_start t₀) (fun _ a h => h.step a) as
  have hsound : y.Sound := hrun.congr rfl rfl rfl rfl fun _ _ _ _ => Iff.rfl
  refine ⟨fun p tag tags qs qs' => hsound.consistent.registers y.tree s p tag tags qs qs',
    fun later hfiles => ?_⟩
  have hcontinues := hsound.continues_run hfiles
  obtain ⟨added, horder⟩ := hcontinues.order_prefix
  exact ⟨added, hsound.consistent.prolongs hcontinues.sound.consistent horder.symm
    hcontinues.views⟩

end SharedRegistry

namespace TwoCopies

/-- Two directories with a copy of one resource each. -/
def tree : FileTree :=
  ⟨[(["d"], .directory), (["d", "m"], .file "1".toUTF8), (["e"], .directory),
    (["e", "m"], .file "2".toUTF8)], []⟩

/-- The first one is registered. -/
def first : List RegistryAction := [.call ⟨"/d"⟩ none, .advance 0, .advance 0]

/-- Then the second one is, and both are searched. -/
def second : List RegistryAction :=
  [.call ⟨"/e"⟩ none, .advance 1, .advance 1, .snapshot, .search 0 .findAll "m"]

/-- The first copy keeps being served. -/
theorem first_copy_stays :
    let y := { (SharedRegistry.start tree).run first with lookups := LookupState.empty }
    let y' := y.run second
    (∀ t, RegistryAction.files t ∉ second) ∧
      (y.registry.find? y.tree "m" .empty).1 = some (.file ⟨"/d/m"⟩) ∧
      (y'.registry.findAll y.tree "m" y'.lookups).1 = [.file ⟨"/d/m"⟩, .file ⟨"/e/m"⟩] ∧
      ∃ added, y.registry.Prolongs y.tree .empty added y'.registry y'.lookups := by
  have hfiles : ∀ t, RegistryAction.files t ∉ second := by
    intro t ht
    simp [second] at ht
  exact ⟨hfiles, by decide +kernel, by decide +kernel,
    (SharedRegistry.prolongs_run tree first .empty).2 second hfiles⟩

end TwoCopies

end Overlay
