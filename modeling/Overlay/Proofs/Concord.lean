import Overlay.Proofs.Describing
import Overlay.Proofs.SharedRegistry

/-!
# The four look-ups agree

A registry tells where a resource is first found, and where it is found at all; what the first copy
holds, and what all copies hold. While the files stay as they are, each of the four says what a
function on the list of origins says of what every origin offers, whatever was looked up before.
That the four agree is then a fact about these functions.
-/

namespace Overlay

namespace Origin

variable {t : FileTree} {a : ArchiveTable} {resource : String} {o : Origin}

/-- Whether an origin shows a resource through some views. -/
def shows (t : FileTree) (a : ArchiveTable) (resource : String) (o : Origin) : Bool :=
  (o.holds t resource ⟨a, []⟩).1

/-- The copy of a resource that an origin offers through some views. -/
def offer (t : FileTree) (a : ArchiveTable) (resource : String) (o : Origin) :
    Except LoadError (Option Found) :=
  (o.readResource t resource ⟨a, []⟩).1.map (Option.map (o, ·))

/-- What an origin can offer. -/
inductive Offers (t : FileTree) (a : ArchiveTable) (resource : String) (o : Origin) : Prop
  /-- It does not have the resource. -/
  | absent (unshown : o.shows t a resource = false) (offered : o.offer t a resource = .ok none)
  /-- It has the resource, at its place. -/
  | copy (found : Resource) (location_eq : found.location = o.locate resource)
      (shown : o.shows t a resource = true)
      (offered : o.offer t a resource = .ok (some (o, found)))
  /-- It has the resource, but it cannot be read at its place. -/
  | unreadable (cause : IoError) (shown : o.shows t a resource = true)
      (offered : o.offer t a resource = .error (.read resource (o.locate resource) cause))

/-- An origin offers one of these. -/
theorem offers_offer (t : FileTree) (a : ArchiveTable) (resource : String) (o : Origin) :
    Offers t a resource o := by
  have hnone := @readResource_eq_none_iff t o ⟨a, []⟩ resource
  have hshown (hne : (o.readResource t resource ⟨a, []⟩).1 ≠ .ok none) :
      o.shows t a resource = true := by
    cases hs : o.shows t a resource with
    | true => rfl
    | false => exact absurd (hnone.2 hs) hne
  cases hr : (o.readResource t resource ⟨a, []⟩).1 with
  | error e =>
    obtain ⟨cause, rfl⟩ := error_of_readResource hr
    exact .unreadable cause (hshown (by simp [hr])) (by rw [offer, hr]; rfl)
  | ok found =>
    cases found with
    | none => exact .absent (hnone.1 hr) (by rw [offer, hr]; rfl)
    | some found =>
      exact .copy found (location_of_readResource hr) (hshown (by simp [hr]))
        (by rw [offer, hr]; rfl)

end Origin

namespace ArchiveTable.Opens

variable {t : FileTree} {os : List Origin} {a : ArchiveTable} {s : LookupState} {o : Origin}

/-- Asking one of the origins for a resource opens at most its view. -/
theorem holds (h : a.Opens t os s.archives) (ho : o ∈ os) (resource : String) :
    a.Opens t os (o.holds t resource s).2.archives :=
  Origin.keeps_holds (P := (a.Opens t os ·.archives)) (fun s' h' => h'.trans (.view ho s')) resource
    h

theorem readResource (h : a.Opens t os s.archives) (ho : o ∈ os) (resource : String) :
    a.Opens t os (o.readResource t resource s).2.archives :=
  Origin.keeps_readResource (P := (a.Opens t os ·.archives)) (fun s' h' => h'.trans (.view ho s'))
    resource h

end ArchiveTable.Opens

namespace Registry

variable {t : FileTree} {r : Registry} {a : ArchiveTable} {s : LookupState} {o : Origin}
  {resource : String} {os : List Origin}

section Opened

variable (hr : r.Consistent)

include hr

/-- What a registered archive is seen as does not depend on what was looked up before. -/
theorem Consistent.view_opened (ho : o ∈ r.order) (h : a.Opens t r.order s.archives) :
    (o.view t s).1 = (o.view t ⟨a, []⟩).1 := by
  cases hg : a.get? o.location with
  | some i => exact Origin.view_congr ((h.kept _ i hg).trans hg.symm)
  | none =>
    cases hg' : s.archives.get? o.location with
    | none => exact Origin.view_congr (hg'.trans hg.symm)
    | some i =>
      -- the view was opened since then, on the same files
      obtain ⟨o', ho', hc, hi⟩ := h.opened _ i hg hg'
      obtain rfl := hr.eq_of_mem ho' ho hc
      unfold Origin.view ArchiveTable.openView
      simp only [hg, hg', hi, ArchiveTable.get?_insertIfAbsent, if_true, Option.getD_none,
        Option.getD_some]

theorem Consistent.holds_opened (ho : o ∈ r.order) (h : a.Opens t r.order s.archives)
    (resource : String) : (o.holds t resource s).1 = o.shows t a resource :=
  Origin.holds_of_view_eq (hr.view_opened ho h) resource

theorem Consistent.readResource_opened (ho : o ∈ r.order) (h : a.Opens t r.order s.archives)
    (resource : String) :
    (o.readResource t resource s).1.map (Option.map (o, ·)) = o.offer t a resource :=
  congrArg (Except.map (Option.map (o, ·)))
    (Origin.readResource_of_view_eq (hr.view_opened ho h) resource)

/-- The place of a resource is that in the first origin that shows it. -/
theorem Consistent.findIn_fst (hos : ∀ o ∈ os, o ∈ r.order) (h : a.Opens t r.order s.archives) :
    (findIn t resource os s).1 =
      (os.find? (·.shows t a resource)).map (·.locate resource) := by
  induction os generalizing s with
  | nil => rfl
  | cons o os ih =>
    have ho := hos o List.mem_cons_self
    have hheld := hr.holds_opened ho h resource
    have hopens := h.holds ho resource
    rw [findIn, List.find?_cons]
    generalize o.holds t resource s = held at hheld hopens
    obtain ⟨shown, s₁⟩ := held
    obtain rfl : shown = o.shows t a resource := hheld
    cases o.shows t a resource with
    | true => rfl
    | false => exact ih (fun o' ho' => hos o' (List.mem_cons_of_mem o ho')) hopens

/-- The places of a resource are those in the origins that show it. -/
theorem Consistent.findAllIn_fst (hos : ∀ o ∈ os, o ∈ r.order)
    (h : a.Opens t r.order s.archives) :
    (findAllIn t resource os s).1 =
      (os.filter (·.shows t a resource)).map (·.locate resource) := by
  induction os generalizing s with
  | nil => rfl
  | cons o os ih =>
    have ho := hos o List.mem_cons_self
    have hheld := hr.holds_opened ho h resource
    have hopens := h.holds ho resource
    rw [findAllIn, List.filter_cons]
    generalize o.holds t resource s = held at hheld hopens
    obtain ⟨shown, s₁⟩ := held
    obtain rfl : shown = o.shows t a resource := hheld
    have hrest := ih (fun o' ho' => hos o' (List.mem_cons_of_mem o ho')) hopens
    cases o.shows t a resource with
    | true => exact congrArg (o.locate resource :: ·) hrest
    | false => exact hrest

/-- What is read of a resource is the first offer. -/
theorem Consistent.resolveIn_fst (hos : ∀ o ∈ os, o ∈ r.order)
    (h : a.Opens t r.order s.archives) :
    (resolveIn t resource os s).1 = os.findSomeM? (·.offer t a resource) := by
  induction os generalizing s with
  | nil => rfl
  | cons o os ih =>
    have ho := hos o List.mem_cons_self
    have hread := hr.readResource_opened ho h resource
    have hopens := h.readResource ho resource
    rw [resolveIn, List.findSomeM?_cons, ← hread]
    generalize o.readResource t resource s = read at hopens
    rcases read with ⟨e | _ | found, s₁⟩
    · rfl
    · exact ih (fun o' ho' => hos o' (List.mem_cons_of_mem o ho')) hopens
    · rfl

/-- What is read of all copies of a resource are all offers, unless one of them fails. -/
theorem Consistent.resolveAllIn_fst (hos : ∀ o ∈ os, o ∈ r.order)
    (h : a.Opens t r.order s.archives) :
    (resolveAllIn t resource os s).1 = os.filterMapM (·.offer t a resource) := by
  induction os generalizing s with
  | nil => rfl
  | cons o os ih =>
    have ho := hos o List.mem_cons_self
    have hread := hr.readResource_opened ho h resource
    have hopens := h.readResource ho resource
    rw [resolveAllIn, List.filterMapM_cons, ← hread]
    generalize o.readResource t resource s = read at hopens
    rcases read with ⟨e | _ | found, s₁⟩
    · rfl
    · exact ih (fun o' ho' => hos o' (List.mem_cons_of_mem o ho')) hopens
    · have hrest := ih (fun o' ho' => hos o' (List.mem_cons_of_mem o ho')) hopens
      dsimp only at hrest ⊢
      change _ = (os.filterMapM (Origin.offer t a resource)).bind fun more =>
        .ok ((o, found) :: more)
      rw [← hrest]
      generalize resolveAllIn t resource os s₁ = rest
      rcases rest with ⟨e | more, s₂⟩ <;> rfl

/-- The four look-ups of a registry as functions on what its origins offer. -/
theorem Consistent.find?_fst (h : a.Opens t r.order s.archives) :
    (r.find? t resource s).1 =
      (r.order.find? (·.shows t a resource)).map (·.locate resource) :=
  hr.findIn_fst (fun _ ho => ho) h

theorem Consistent.findAll_fst (h : a.Opens t r.order s.archives) :
    (r.findAll t resource s).1 =
      (r.order.filter (·.shows t a resource)).map (·.locate resource) :=
  hr.findAllIn_fst (fun _ ho => ho) h

theorem Consistent.resolve?_fst (h : a.Opens t r.order s.archives) :
    (r.resolve? t resource s).1 = r.order.findSomeM? (·.offer t a resource) :=
  hr.resolveIn_fst (fun _ ho => ho) h

theorem Consistent.resolveAll_fst (h : a.Opens t r.order s.archives) :
    (r.resolveAll t resource s).1 = r.order.filterMapM (·.offer t a resource) :=
  hr.resolveAllIn_fst (fun _ ho => ho) h

/-- Views that were opened since make no difference to the place of a resource. -/
theorem Consistent.find?_opened {s' : LookupState}
    (h : s.archives.Opens t r.order s'.archives) :
    (r.find? t resource s').1 = (r.find? t resource s).1 := by
  rw [hr.find?_fst h, hr.find?_fst (.refl t r.order _)]

theorem Consistent.findAll_opened {s' : LookupState}
    (h : s.archives.Opens t r.order s'.archives) :
    (r.findAll t resource s').1 = (r.findAll t resource s).1 := by
  rw [hr.findAll_fst h, hr.findAll_fst (.refl t r.order _)]

theorem Consistent.resolve?_opened {s' : LookupState}
    (h : s.archives.Opens t r.order s'.archives) :
    (r.resolve? t resource s').1 = (r.resolve? t resource s).1 := by
  rw [hr.resolve?_fst h, hr.resolve?_fst (.refl t r.order _)]

theorem Consistent.resolveAll_opened {s' : LookupState}
    (h : s.archives.Opens t r.order s'.archives) :
    (r.resolveAll t resource s').1 = (r.resolveAll t resource s).1 := by
  rw [hr.resolveAll_fst h, hr.resolveAll_fst (.refl t r.order _)]

end Opened

/-- What the four look-ups of a resource say agrees. -/
structure Concord (resource : String) (one : Except LoadError (Option Found))
    (all : Except LoadError (List Found)) (first : Option Location) (places : List Location) :
    Prop where
  /-- All copies that are read lie at all places, each where its origin keeps it, in one order, and
  the first of them is the one copy that is read and lies at the first place. -/
  listed : ∀ l, all = .ok l → places = l.map (·.2.location) ∧
    (∀ x ∈ l, x.2.location = x.1.locate resource) ∧ one = .ok l.head? ∧
      first = l.head?.map (·.2.location)
  /-- The first place comes first among all places. -/
  first_eq : first = places.head?
  /-- Nothing is read exactly if there is no place. -/
  absent_iff : one = .ok none ↔ first = none
  /-- What cannot be read is the copy at the first place. -/
  unreadable : ∀ e, one = .error e → ∃ l cause, e = .read resource l cause ∧ first = some l

/-- The functions on the list of origins agree. -/
theorem concord_origins (t : FileTree) (a : ArchiveTable) (resource : String) (os : List Origin) :
    Concord resource (os.findSomeM? (·.offer t a resource)) (os.filterMapM (·.offer t a resource))
      ((os.find? (·.shows t a resource)).map (·.locate resource))
      ((os.filter (·.shows t a resource)).map (·.locate resource)) := by
  induction os with
  | nil =>
    refine ⟨fun l hl => ?_, rfl, ⟨fun _ => rfl, fun _ => rfl⟩, nofun⟩
    obtain rfl : [] = l := Except.ok.inj hl
    exact ⟨rfl, nofun, rfl, rfl⟩
  | cons o os ih =>
    rw [List.findSomeM?_cons, List.filterMapM_cons, List.find?_cons, List.filter_cons]
    cases o.offers_offer t a resource with
    | absent unshown offered =>
      rw [unshown, offered]
      exact ih
    | unreadable cause shown offered =>
      rw [shown, offered]
      refine ⟨nofun, rfl, by simp [bind, Except.bind], fun e he => ?_⟩
      exact ⟨_, cause, (Except.error.inj he).symm, rfl⟩
    | copy found location_eq shown offered =>
      rw [shown, offered]
      refine ⟨fun l hl => ?_, rfl, by simp [bind, Except.bind, pure, Except.pure], nofun⟩
      cases hmore : os.filterMapM (·.offer t a resource) with
      | error e =>
        simp [bind, Except.bind, hmore] at hl
      | ok more =>
        have hl' : (o, found) :: more = l := by
          simpa [bind, Except.bind, pure, Except.pure, hmore] using hl
        obtain ⟨hplaces, hwhere, -⟩ := ih.listed more hmore
        subst hl'
        refine ⟨?_, ?_, rfl, ?_⟩
        · simp only [if_true, List.map_cons, location_eq]
          rw [hplaces]
        · rintro x (_ | ⟨_, hx⟩)
          · exact location_eq
          · exact hwhere x hx
        · simp [location_eq]

/-- The views and notices after some searches. -/
def searched (t : FileTree) (r : Registry) (qs : List (Search × String)) (s : LookupState) :
    LookupState := qs.foldl (fun s q => q.1.leaves t r q.2 s) s

/-- Searches open views of the registered origins only. -/
theorem opens_searched (t : FileTree) (r : Registry) (qs : List (Search × String))
    (s : LookupState) : s.archives.Opens t r.order (r.searched t qs s).archives := by
  refine List.foldlRecOn (motive := fun s' : LookupState => s.archives.Opens t r.order s'.archives)
    qs _ (.refl t r.order s.archives) fun s' h q _ => h.trans ?_
  obtain ⟨how, resource⟩ := q
  cases how with
  | find => exact r.opens_find? t resource s'
  | findAll => exact r.opens_findAll t resource s'
  | resolve => exact r.opens_resolve? t resource s'
  | resolveAll => exact r.opens_resolveAll t resource s'

/-- The four look-ups of a resource agree, in every registry that calls, snapshots, searches and
changes of the files lead to, on all files and through all views. Each may come after any searches
of its own on the same files, so they may also follow each other in any order. -/
theorem concord_run (t₀ : FileTree) (as : List RegistryAction) (t : FileTree) (s : LookupState)
    (resource : String) (qs₁ qs₂ qs₃ qs₄ : List (Search × String)) :
    let r := ((SharedRegistry.start t₀).run as).registry
    Concord resource (r.resolve? t resource (r.searched t qs₁ s)).1
      (r.resolveAll t resource (r.searched t qs₂ s)).1
      (r.find? t resource (r.searched t qs₃ s)).1
      (r.findAll t resource (r.searched t qs₄ s)).1 := by
  intro r
  have hr : r.Consistent := (SharedRegistry.run_induction (SharedRegistry.sound_start t₀)
    (fun _ a h => h.step a) as).consistent
  have hopens := fun qs => r.opens_searched t qs s
  have hall : ∀ o ∈ r.order, o ∈ r.order := fun _ ho => ho
  unfold resolve? resolveAll find? findAll
  rw [hr.resolveIn_fst hall (hopens qs₁), hr.resolveAllIn_fst hall (hopens qs₂),
    hr.findIn_fst hall (hopens qs₃), hr.findAllIn_fst hall (hopens qs₄)]
  exact concord_origins t s.archives resource r.order

end Registry

end Overlay
