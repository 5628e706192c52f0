import Overlay.Proofs.Enumeration

/-!
# Archives that cannot be read

An archive that has no live view and cannot be indexed (it is gone, it ends early, it is damaged, or
it declares more than a number can hold) shows no resource and offers none. While the files stay as
they are, a registry answers every look-up as if such archives had never been registered, wherever
they stand in the order and whatever was looked up before. No failure is theirs, and they get no
view.
-/

namespace Overlay

section Lists

variable {α β ε : Type} {f : α → Except ε (Option β)} {keep : α → Bool} {xs : List α} {e : ε}

/-- What gives nothing can be left out of a search. -/
theorem findSomeM?_filter (h : ∀ x ∈ xs, keep x = false → f x = .ok none) :
    (xs.filter keep).findSomeM? f = xs.findSomeM? f := by
  induction xs with
  | nil => rfl
  | cons x xs ih =>
    have hrest := ih fun y hy => h y (List.mem_cons_of_mem x hy)
    rw [List.filter_cons, List.findSomeM?_cons]
    cases hx : keep x with
    | true => rw [if_pos rfl, List.findSomeM?_cons, hrest]
    | false =>
      rw [if_neg Bool.false_ne_true, h x List.mem_cons_self hx]
      exact hrest

/-- What gives nothing can be left out where everything is gathered. -/
theorem filterMapM_filter (h : ∀ x ∈ xs, keep x = false → f x = .ok none) :
    (xs.filter keep).filterMapM f = xs.filterMapM f := by
  induction xs with
  | nil => rfl
  | cons x xs ih =>
    have hrest := ih fun y hy => h y (List.mem_cons_of_mem x hy)
    rw [List.filter_cons, List.filterMapM_cons]
    cases hx : keep x with
    | true => rw [if_pos rfl, List.filterMapM_cons, hrest]
    | false =>
      rw [if_neg Bool.false_ne_true, h x List.mem_cons_self hx]
      exact hrest

/-- A search fails at one of the elements. -/
theorem exists_error_of_findSomeM? (h : xs.findSomeM? f = .error e) :
    ∃ x ∈ xs, f x = .error e := by
  induction xs with
  | nil => cases h
  | cons x xs ih =>
    rw [List.findSomeM?_cons] at h
    cases hx : f x with
    | error e' =>
      rw [hx] at h
      obtain rfl : e' = e := Except.error.inj h
      exact ⟨x, List.mem_cons_self, hx⟩
    | ok found =>
      rw [hx] at h
      cases found with
      | some b => cases h
      | none =>
        obtain ⟨y, hy, he⟩ := ih h
        exact ⟨y, List.mem_cons_of_mem x hy, he⟩

/-- Gathering everything fails at one of the elements. -/
theorem exists_error_of_filterMapM (h : xs.filterMapM f = .error e) :
    ∃ x ∈ xs, f x = .error e := by
  induction xs with
  | nil => cases h
  | cons x xs ih =>
    rw [List.filterMapM_cons] at h
    cases hx : f x with
    | error e' =>
      rw [hx] at h
      obtain rfl : e' = e := Except.error.inj h
      exact ⟨x, List.mem_cons_self, hx⟩
    | ok found =>
      -- whatever the first element gives, the failure is that of the rest
      have hrest : xs.filterMapM f = .error e := by
        rw [hx] at h
        cases found with
        | none => exact h
        | some b =>
          cases hmore : xs.filterMapM f with
          | error e' =>
            rw [hmore] at h
            exact h
          | ok more =>
            rw [hmore] at h
            cases h
      obtain ⟨y, hy, he⟩ := ih hrest
      exact ⟨y, List.mem_cons_of_mem x hy, he⟩

end Lists

namespace Origin

/-- An archive that cannot be read: no view of it is live, and none can be made. -/
structure Broken (t : FileTree) (a : ArchiveTable) (o : Origin) : Prop where
  /-- It counts as an archive. -/
  archive : o.kind = .archive
  /-- No view of it is live. -/
  unviewed : a.get? o.location = none
  /-- It cannot be indexed. -/
  unreadable : ∃ cause, ArchiveIndex.ofPath t o.location = .error cause

variable {t : FileTree} {a : ArchiveTable} {o : Origin}

/-- Nothing is seen of a broken archive. -/
theorem Broken.view (h : o.Broken t a) : (o.view t ⟨a, []⟩).1 = none := by
  obtain ⟨cause, hcause⟩ := h.unreadable
  unfold Origin.view ArchiveTable.openView
  rw [h.unviewed, hcause]

/-- A broken archive offers nothing, and does not fail. -/
theorem Broken.offer (h : o.Broken t a) (resource : String) :
    o.offer t a resource = .ok none := by
  have hview := h.view
  unfold Origin.offer readResource
  split
  · rfl
  · rw [h.archive]
    dsimp only
    rw [hview]
    rfl

/-- A broken archive shows nothing. -/
theorem Broken.shows (h : o.Broken t a) (resource : String) : o.shows t a resource = false := by
  have hoffer := h.offer resource
  cases o.offers_offer t a resource with
  | absent unshown offered => exact unshown
  | copy found location_eq shown offered =>
    rw [offered] at hoffer
    cases hoffer
  | unreadable cause shown offered =>
    rw [offered] at hoffer
    cases hoffer

end Origin

namespace Registry

variable {t : FileTree} {r : Registry} {s : LookupState} {gone : Origin → Bool}
  {resource : String}

/-- A registry with some of its origins left out. -/
def without (r : Registry) (gone : Origin → Bool) : Registry where
  order := r.order.filter (!gone ·)
  members := ((r.order.filter (!gone ·)).map (·.location.components)).reverse

theorem Consistent.without (hr : r.Consistent) (gone : Origin → Bool) :
    (r.without gone).Consistent where
  members_eq := rfl
  distinct := hr.distinct.sublist (List.filter_sublist.map _)

/-- The look-ups of a resource pass over some origins: whatever was searched for before, they answer
as if these had been left out. -/
structure PassesOver (t : FileTree) (s : LookupState) (r : Registry) (gone : Origin → Bool)
    (resource : String) : Prop where
  /-- The same place is found. -/
  find?_eq : ∀ qs qs', (r.find? t resource (r.searched t qs s)).1 =
    ((r.without gone).find? t resource ((r.without gone).searched t qs' s)).1
  /-- The same places are listed, in the same order. -/
  findAll_eq : ∀ qs qs', (r.findAll t resource (r.searched t qs s)).1 =
    ((r.without gone).findAll t resource ((r.without gone).searched t qs' s)).1
  /-- The same copy is read, or cannot be read. -/
  resolve?_eq : ∀ qs qs', (r.resolve? t resource (r.searched t qs s)).1 =
    ((r.without gone).resolve? t resource ((r.without gone).searched t qs' s)).1
  /-- The same copies are read, in the same order, or the same one cannot be read. -/
  resolveAll_eq : ∀ qs qs', (r.resolveAll t resource (r.searched t qs s)).1 =
    ((r.without gone).resolveAll t resource ((r.without gone).searched t qs' s)).1
  /-- What cannot be read is the copy of another origin. -/
  unblamed : ∀ qs e, (r.resolve? t resource (r.searched t qs s)).1 = .error e ∨
      (r.resolveAll t resource (r.searched t qs s)).1 = .error e →
    ∃ o ∈ r.order, gone o = false ∧ ∃ cause, e = .read resource (o.locate resource) cause
  /-- No search makes a view of these origins. -/
  unviewed : ∀ qs, ∀ o ∈ r.order, gone o = true →
    (r.searched t qs s).archives.get? o.location = none

/-- No search makes a view of an archive that cannot be read. -/
theorem Consistent.unviewed_searched (hr : r.Consistent) {o : Origin} (ho : o ∈ r.order)
    (hbroken : o.Broken t s.archives) (qs : List (Search × String)) :
    (r.searched t qs s).archives.get? o.location = none := by
  cases hview : (r.searched t qs s).archives.get? o.location with
  | none => rfl
  | some i =>
    obtain ⟨o', ho', hlocation, hi⟩ :=
      (r.opens_searched t qs s).opened _ i hbroken.unviewed hview
    obtain rfl := hr.eq_of_mem ho' ho hlocation
    obtain ⟨cause, hcause⟩ := hbroken.unreadable
    rw [hcause] at hi
    cases hi

/-- A copy that cannot be read is that of an origin in the list. -/
theorem exists_unreadable {os : List Origin} {a : ArchiveTable} {e : LoadError}
    (h : ∃ o ∈ os, o.offer t a resource = .error e) :
    ∃ o ∈ os, ∃ cause, e = .read resource (o.locate resource) cause := by
  obtain ⟨o, ho, he⟩ := h
  cases o.offers_offer t a resource with
  | absent unshown offered =>
    rw [offered] at he
    cases he
  | copy found location_eq shown offered =>
    rw [offered] at he
    cases he
  | unreadable cause shown offered =>
    rw [offered] at he
    exact ⟨o, ho, cause, (Except.error.inj he).symm⟩

/-- A consistent registry passes over archives that cannot be read. -/
theorem Consistent.passesOver (hr : r.Consistent)
    (hgone : ∀ o ∈ r.order, gone o = true → o.Broken t s.archives) (resource : String) :
    PassesOver t s r gone resource := by
  have hr' := hr.without gone
  have hopens := fun qs => r.opens_searched t qs s
  have hopens' := fun qs => (r.without gone).opens_searched t qs s
  have hbroken : ∀ o ∈ r.order, (!gone o) = false → o.Broken t s.archives := by
    intro o ho hg
    exact hgone o ho (by simpa using hg)
  have hoffer := fun o ho hg => (hbroken o ho hg).offer resource
  have hkept : ∀ o ∈ r.order,
      (o.shows t s.archives resource && !gone o) = o.shows t s.archives resource := by
    intro o ho
    cases hg : gone o with
    | false => simp
    | true => rw [(hgone o ho hg).shows resource]; rfl
  have hlisted : ∀ qs qs', (r.findAll t resource (r.searched t qs s)).1 =
      ((r.without gone).findAll t resource ((r.without gone).searched t qs' s)).1 := by
    intro qs qs'
    rw [hr.findAll_fst (hopens qs), hr'.findAll_fst (hopens' qs'), Registry.without,
      List.filter_filter, List.filter_congr hkept]
  refine ⟨fun qs qs' => ?found, hlisted, fun qs qs' => ?read, fun qs qs' => ?allRead,
    fun qs e he => ?failed, fun qs o ho hg => hr.unviewed_searched ho (hgone o ho hg) qs⟩
  case found =>
    have hfirst := congrArg List.head? (hlisted qs qs')
    exact findIn_eq_head?_findAllIn.trans (hfirst.trans findIn_eq_head?_findAllIn.symm)
  case read =>
    rw [hr.resolve?_fst (hopens qs), hr'.resolve?_fst (hopens' qs')]
    exact (findSomeM?_filter hoffer).symm
  case allRead =>
    rw [hr.resolveAll_fst (hopens qs), hr'.resolveAll_fst (hopens' qs')]
    exact (filterMapM_filter hoffer).symm
  case failed =>
    rw [hr.resolve?_fst (hopens qs), hr.resolveAll_fst (hopens qs), ← findSomeM?_filter hoffer,
      ← filterMapM_filter hoffer] at he
    have hfailed : ∃ o ∈ r.order.filter (!gone ·), o.offer t s.archives resource = .error e :=
      he.elim exists_error_of_findSomeM? exists_error_of_filterMapM
    obtain ⟨o, ho, cause, rfl⟩ := exists_unreadable hfailed
    obtain ⟨hmem, hkeep⟩ := List.mem_filter.1 ho
    exact ⟨o, hmem, by simpa using hkeep, cause, rfl⟩

end Registry

/-- In every registry that calls, snapshots, searches and changes of the files lead to, on all files
and through all views, any archives that have no live view and cannot be indexed are invisible: the
four look-ups answer as if these origins were left out, fail only at other origins, and make no
views of them. -/
theorem SharedRegistry.passesOver_run (t₀ : FileTree) (as : List RegistryAction) (t : FileTree)
    (s : LookupState) {gone : Origin → Bool}
    (hgone : ∀ o ∈ ((start t₀).run as).registry.order, gone o = true → o.Broken t s.archives)
    (resource : String) :
    ((start t₀).run as).registry.PassesOver t s gone resource :=
  (sound_run t₀ as).consistent.passesOver hgone resource

namespace CutArchive

/-- An archive that ends within its first header, and a directory. -/
def tree : FileTree :=
  ⟨[(["x.tar"], .file "cut".toUTF8), (["d"], .directory), (["d", "m"], .file "1".toUTF8)], []⟩

/-- Both are registered, the archive first. -/
def registrations : List RegistryAction :=
  [.call ⟨"/x.tar"⟩ (some .early), .advance 0, .advance 0, .call ⟨"/d"⟩ none, .advance 1,
    .advance 1]

/-- The archives. -/
def gone (o : Origin) : Bool := o.kind == .archive

/-- The copy in the directory is found behind the archive, and the archive has no view then. -/
theorem found_behind_archive :
    let r := ((SharedRegistry.start tree).run registrations).registry
    (∀ o ∈ r.order, gone o = true → o.Broken tree LookupState.empty.archives) ∧
      r.order = [⟨⟨"/x.tar"⟩, .archive⟩, ⟨⟨"/d"⟩, .directory⟩] ∧
      (r.find? tree "m" .empty).1 = some (.file ⟨"/d/m"⟩) ∧
      (r.find? tree "m" .empty).2.archives = .empty ∧
      r.PassesOver tree .empty gone "m" := by
  have horder : ((SharedRegistry.start tree).run registrations).registry.order =
      [⟨⟨"/x.tar"⟩, .archive⟩, ⟨⟨"/d"⟩, .directory⟩] := by decide +kernel
  have hbroken : ∀ o ∈ ((SharedRegistry.start tree).run registrations).registry.order,
      gone o = true → o.Broken tree LookupState.empty.archives := by
    rw [horder]
    intro o ho hg
    rcases List.mem_cons.1 ho with rfl | ho
    · exact ⟨rfl, rfl, .badArchive, by decide +kernel⟩
    · obtain rfl := List.mem_singleton.1 ho
      cases hg
  exact ⟨hbroken, horder, by decide +kernel, by decide +kernel,
    SharedRegistry.passesOver_run tree registrations tree .empty hbroken "m"⟩

end CutArchive

end Overlay
