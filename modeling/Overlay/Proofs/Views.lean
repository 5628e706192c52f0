import Overlay.Proofs.CodeSource
import Overlay.Proofs.Registration

/-!
# Look-ups through live views

A look-up reads archives through views that stay as they are once they are live. While the files
do not change, views that were opened on them are faithful: they show what a new view would show,
and every look-up answers as if there were no views at all.
-/

namespace Overlay

open FileTree

/-- A view that is entered is that of its archive if there was none, and of no other archive. -/
theorem ArchiveTable.get?_insertIfAbsent (a : ArchiveTable) (p q : Path) (i : ArchiveIndex) :
    (a.insertIfAbsent p i).get? q =
      if q.components = p.components then some ((a.get? p).getD i) else a.get? q :=
  Table.get?_insertIfAbsent ..

/-- What opening a view can do. -/
theorem ArchiveTable.openView_cases (t : FileTree) (p : Path) (a : ArchiveTable) :
    (∃ i, a.get? p = some i ∧ a.openView t p = (.ok i, a)) ∨
      (∃ e, a.get? p = none ∧ ArchiveIndex.ofPath t p = .error e ∧
        a.openView t p = (.error e, a)) ∨
      ∃ i, a.get? p = none ∧ ArchiveIndex.ofPath t p = .ok i ∧
        a.openView t p = (.ok i, a.insertIfAbsent p i) := by
  unfold openView
  cases hg : a.get? p with
  | some i => exact Or.inl ⟨i, rfl, rfl⟩
  | none =>
    cases hi : ArchiveIndex.ofPath t p with
    | error e => exact Or.inr (Or.inl ⟨e, rfl, rfl, rfl⟩)
    | ok i =>
      refine Or.inr (Or.inr ⟨i, rfl, rfl, ?_⟩)
      have hnew : (a.insertIfAbsent p i).get? p = some i := by
        rw [get?_insertIfAbsent, if_pos rfl, hg, Option.getD_none]
      simp only [hnew, Option.getD_some]

namespace Origin

/-- An origin as a tree has it: known by a real path, and of the kind of what stands there. -/
structure Stands (t : FileTree) (o : Origin) : Prop where
  /-- The location is a real path. -/
  settled : ∃ place, Settled t place ∧ o.location = pathOf place
  /-- The kind is that of what stands there. -/
  kind_eq : o.kind = if t.isDirectory o.location then .directory else .archive

/-- What a path leads to is an origin that stands in the tree. -/
theorem stands_of_ofPath {t : FileTree} (hw : t.HasRealWorkingDirectory) {p : Path} {o : Origin}
    (h : ofPath t p = .ok o) : o.Stands t := by
  unfold ofPath at h
  split at h
  · cases h
  · rename_i location hr
    obtain rfl := Except.ok.inj h
    exact ⟨settled_of_realPath hw hr, rfl⟩

/-- Standing origins at the same location are the same. -/
theorem Stands.eq {t : FileTree} {o o' : Origin} (h : o.Stands t) (h' : o'.Stands t)
    (hc : o.location.components = o'.location.components) : o = o' := by
  obtain ⟨place, hp, hl⟩ := h.settled
  obtain ⟨place', hp', hl'⟩ := h'.settled
  rw [hl, hl'] at hc
  have hlocation : o.location = o'.location := by
    rw [hl, hl', hp.eq_of_components hp' hc]
  have hkind : o.kind = o'.kind := by rw [h.kind_eq, h'.kind_eq, hlocation]
  cases o
  cases o'
  exact congr (congrArg Origin.mk hlocation) hkind

/-- A resource that is read lies where the origin keeps it. -/
theorem location_of_readResource {t : FileTree} {resource : String} {o : Origin} {s : LookupState}
    {found : Resource} (h : (o.readResource t resource s).1 = .ok (some found)) :
    found.location = o.locate resource := by
  have hr := reads_readResource t resource o s
  generalize o.readResource t resource s = r at h hr
  cases hr with
  | file hb hk hf read =>
    obtain rfl := Option.some.inj (Except.ok.inj h)
    rfl
  | archive hb hk =>
    obtain ⟨bytes, -, rfl⟩ := Option.map_eq_some_iff.1 (Except.ok.inj h)
    rfl
  | _ => cases h

/-- A resource that is read from a directory is a file below it. -/
theorem isFile_of_readResource {t : FileTree} {resource : String} {o : Origin} {s : LookupState}
    {found : Resource} (h : (o.readResource t resource s).1 = .ok (some found)) :
    Path.staysBelow resource = true ∧
      (o.kind = .directory → t.isFile (o.location.join resource) = true) := by
  have hr := reads_readResource t resource o s
  generalize o.readResource t resource s = r at h hr
  cases hr with
  | file hb hk hf read => exact ⟨hb, fun _ => hf⟩
  | archive hb hk =>
    refine ⟨hb, fun hk' => ?_⟩
    rw [hk] at hk'
    cases hk'
  | _ => cases h

/-- A symbol's copy in a standing origin has the origin for its code source, if the suffix has no
slash. -/
theorem Stands.codeSource?_locate {t : FileTree} {o : Origin} (h : o.Stands t) {suffix : String}
    (hs : '/' ∉ suffix.toList) {name : String} {s : LookupState} {found : Resource}
    (hr : (o.readResource t (SymbolName.resource name suffix) s).1 = .ok (some found)) :
    (o.locate (SymbolName.resource name suffix)).codeSource? t
      (SymbolName.resource name suffix) = some o.location := by
  obtain ⟨hb, hf⟩ := isFile_of_readResource hr
  obtain ⟨place, hp, hl⟩ := h.settled
  unfold locate
  cases hk : o.kind with
  | directory =>
    have hfile := hf hk
    rw [hl] at hfile ⊢
    exact hp.codeSource?_file hs hb hfile
  | archive =>
    rw [hl]
    exact hp.codeSource?_entry _

end Origin

section Keeping

variable {t : FileTree} {P : LookupState → Prop} {s : LookupState}

/-- Asking an origin for a resource keeps what looking at it keeps. -/
theorem Origin.keeps_holds {o : Origin} (h : ∀ s, P s → P (o.view t s).2) (resource : String)
    (hs : P s) : P (o.holds t resource s).2 := by
  unfold holds
  split
  · exact hs
  · split
    · exact hs
    · exact h s hs

/-- Reading a resource from an origin keeps what looking at it keeps. -/
theorem Origin.keeps_readResource {o : Origin} (h : ∀ s, P s → P (o.view t s).2)
    (resource : String) (hs : P s) : P (o.readResource t resource s).2 := by
  have hr := reads_readResource t resource o s
  generalize o.readResource t resource s = r at hr
  cases hr with
  | archive hb hk => exact h s hs
  | _ => exact hs

namespace Registry

variable {os : List Origin}

/-- Looking for a resource keeps what looking at each origin keeps. -/
theorem keeps_findIn (h : ∀ o ∈ os, ∀ s, P s → P (o.view t s).2) (resource : String) (hs : P s) :
    P (findIn t resource os s).2 := by
  induction os generalizing s with
  | nil => exact hs
  | cons o os ih =>
    have hheld := o.keeps_holds (h o List.mem_cons_self) resource hs
    rw [findIn]
    split <;> rename_i he <;> rw [he] at hheld
    · exact hheld
    · exact ih (fun o' ho' => h o' (List.mem_cons_of_mem o ho')) hheld

/-- Looking for all copies of a resource keeps what looking at each origin keeps. -/
theorem keeps_findAllIn (h : ∀ o ∈ os, ∀ s, P s → P (o.view t s).2) (resource : String)
    (hs : P s) : P (findAllIn t resource os s).2 := by
  induction os generalizing s with
  | nil => exact hs
  | cons o os ih =>
    have hheld := o.keeps_holds (h o List.mem_cons_self) resource hs
    have hrest := fun {s} => @ih s fun o' ho' => h o' (List.mem_cons_of_mem o ho')
    rw [findAllIn]
    split <;> rename_i he <;> rw [he] at hheld
    · exact hrest hheld
    · exact hrest hheld

/-- Reading a resource keeps what looking at each origin keeps. -/
theorem keeps_resolveIn (h : ∀ o ∈ os, ∀ s, P s → P (o.view t s).2) (resource : String)
    (hs : P s) : P (resolveIn t resource os s).2 := by
  induction os generalizing s with
  | nil => exact hs
  | cons o os ih =>
    have hread := o.keeps_readResource (h o List.mem_cons_self) resource hs
    rw [resolveIn]
    split <;> rename_i he <;> rw [he] at hread
    · exact hread
    · exact hread
    · exact ih (fun o' ho' => h o' (List.mem_cons_of_mem o ho')) hread

/-- Reading all copies of a resource keeps what looking at each origin keeps. -/
theorem keeps_resolveAllIn (h : ∀ o ∈ os, ∀ s, P s → P (o.view t s).2) (resource : String)
    (hs : P s) : P (resolveAllIn t resource os s).2 := by
  induction os generalizing s with
  | nil => exact hs
  | cons o os ih =>
    have hread := o.keeps_readResource (h o List.mem_cons_self) resource hs
    have hrest := fun {s} => @ih s fun o' ho' => h o' (List.mem_cons_of_mem o ho')
    rw [resolveAllIn]
    split <;> rename_i he <;> rw [he] at hread
    · exact hread
    · exact hrest hread
    · have hmore := hrest hread
      split <;> rename_i he' <;> rw [he'] at hmore <;> exact hmore

end Registry

end Keeping

namespace LookupState

/-- Every live view of a settled archive shows what a new view would show. -/
def Faithful (t : FileTree) (s : LookupState) : Prop :=
  ∀ place i, Settled t place → s.archives.get? (pathOf place) = some i →
    ArchiveIndex.ofPath t (pathOf place) = .ok i

theorem faithful_empty (t : FileTree) : empty.Faithful t := by
  intro place i _ hi
  cases hi

end LookupState

namespace Origin

variable {t : FileTree} {o : Origin} {s : LookupState}

/-- A faithful view is a new view, and opening it keeps the views faithful. -/
theorem Stands.view (h : o.Stands t) (hs : s.Faithful t) :
    (o.view t s).1 = (ArchiveIndex.ofPath t o.location).toOption ∧ (o.view t s).2.Faithful t := by
  obtain ⟨place, hp, hl⟩ := h.settled
  unfold Origin.view
  rcases ArchiveTable.openView_cases t o.location s.archives with
      ⟨i, hg, ho⟩ | ⟨e, hg, hi, ho⟩ | ⟨i, hg, hi, ho⟩
  · rw [ho]
    refine ⟨?_, hs⟩
    rw [hl] at hg ⊢
    rw [hs place i hp hg]
    rfl
  · rw [ho, hi]
    exact ⟨rfl, hs⟩
  · rw [ho, hi]
    refine ⟨rfl, ?_⟩
    intro place' j hp' hj
    change (s.archives.insertIfAbsent o.location i).get? (pathOf place') = some j at hj
    rw [ArchiveTable.get?_insertIfAbsent, hg, Option.getD_none] at hj
    split at hj
    · rename_i hc
      obtain rfl := Option.some.inj hj
      rw [hl] at hc
      rw [hp'.eq_of_components hp hc, ← hl]
      exact hi
    · exact hs place' j hp' hj

/-- Whether an origin has a resource depends on what the origin is seen as. -/
theorem holds_of_view_eq {s' : LookupState} (h : (o.view t s').1 = (o.view t s).1)
    (resource : String) : (o.holds t resource s').1 = (o.holds t resource s).1 := by
  unfold Origin.holds
  split
  · rfl
  · split
    · rfl
    · exact congrArg (Option.any (·.contains resource)) h

/-- What is read from an origin depends on what the origin is seen as. -/
theorem readResource_of_view_eq {s' : LookupState} (h : (o.view t s').1 = (o.view t s).1)
    (resource : String) :
    (o.readResource t resource s').1 = (o.readResource t resource s).1 := by
  unfold Origin.readResource
  split
  · rfl
  · split
    · dsimp only
      split
      · rfl
      · split <;> rfl
    · dsimp only
      rw [h]

/-- Reading from a standing origin keeps the views faithful, and gives what it gives without
views. -/
theorem Stands.readResource (h : o.Stands t) (hs : s.Faithful t) (resource : String) :
    (o.readResource t resource s).1 = (o.readResource t resource LookupState.empty).1 ∧
      (o.readResource t resource s).2.Faithful t := by
  have hempty := h.view (LookupState.faithful_empty t)
  exact ⟨readResource_of_view_eq ((h.view hs).1.trans hempty.1.symm) resource,
    keeps_readResource (P := (·.Faithful t)) (fun _ hs => (h.view hs).2) resource hs⟩

end Origin

namespace Registry

variable {t : FileTree} {resource : String} {os : List Origin} {s s' : LookupState}

/-- Looking for a resource in standing origins keeps the views faithful. -/
theorem faithful_findIn (hos : ∀ o ∈ os, o.Stands t) (hs : s.Faithful t)
    (resource : String) :
    (findIn t resource os s).2.Faithful t :=
  keeps_findIn (P := (·.Faithful t)) (fun o ho _ h => ((hos o ho).view h).2) resource hs

/-- Looking for all copies of a resource in standing origins keeps the views faithful. -/
theorem faithful_findAllIn (hos : ∀ o ∈ os, o.Stands t) (hs : s.Faithful t)
    (resource : String) :
    (findAllIn t resource os s).2.Faithful t :=
  keeps_findAllIn (P := (·.Faithful t)) (fun o ho _ h => ((hos o ho).view h).2) resource hs

/-- Reading a resource from standing origins keeps the views faithful. -/
theorem faithful_resolveIn (hos : ∀ o ∈ os, o.Stands t) (hs : s.Faithful t)
    (resource : String) :
    (resolveIn t resource os s).2.Faithful t :=
  keeps_resolveIn (P := (·.Faithful t)) (fun o ho _ h => ((hos o ho).view h).2) resource hs

/-- Reading all copies of a resource from standing origins keeps the views faithful. -/
theorem faithful_resolveAllIn (hos : ∀ o ∈ os, o.Stands t) (hs : s.Faithful t)
    (resource : String) :
    (resolveAllIn t resource os s).2.Faithful t :=
  keeps_resolveAllIn (P := (·.Faithful t)) (fun o ho _ h => ((hos o ho).view h).2) resource hs

/-- Through faithful views the answer does not depend on the views. -/
theorem resolveIn_eq (hos : ∀ o ∈ os, o.Stands t) (hs : s.Faithful t) (hs' : s'.Faithful t) :
    (resolveIn t resource os s).1 = (resolveIn t resource os s').1 := by
  induction os generalizing s s' with
  | nil => rfl
  | cons o os ih =>
    have ho := hos o List.mem_cons_self
    have hread := ho.readResource hs resource
    have hread' := ho.readResource hs' resource
    have hsame := hread.1.trans hread'.1.symm
    rw [resolveIn, resolveIn]
    generalize o.readResource t resource s = r at hread hsame
    generalize o.readResource t resource s' = r' at hread' hsame
    obtain ⟨answer, s₁⟩ := r
    obtain ⟨answer', s₁'⟩ := r'
    obtain rfl : answer = answer' := hsame
    rcases answer with e | _ | found
    · rfl
    · exact ih (fun o' ho' => hos o' (List.mem_cons_of_mem o ho')) hread.2 hread'.2
    · rfl

/-- If no copy is found, no origin has one. -/
theorem readResource_of_resolveIn_none (hos : ∀ o ∈ os, o.Stands t) (hs : s.Faithful t)
    (h : (resolveIn t resource os s).1 = .ok none) :
    ∀ o ∈ os, (o.readResource t resource LookupState.empty).1 = .ok none := by
  induction os generalizing s with
  | nil => simp
  | cons o os ih =>
    have hread := (hos o List.mem_cons_self).readResource hs resource
    rw [resolveIn] at h
    split at h
    · cases h
    · cases h
    · rename_i he
      rw [he] at hread
      intro o' ho'
      rcases List.mem_cons.1 ho' with rfl | ho'
      · exact hread.1.symm
      · exact ih (fun o' ho' => hos o' (List.mem_cons_of_mem o ho')) hread.2 h o' ho'

/-- A copy that is found is what its origin has. -/
theorem readResource_of_resolveIn_some (hos : ∀ o ∈ os, o.Stands t) (hs : s.Faithful t) {o : Origin}
    {found : Resource} (h : (resolveIn t resource os s).1 = .ok (some (o, found))) :
    o ∈ os ∧ (o.readResource t resource LookupState.empty).1 = .ok (some found) := by
  induction os generalizing s with
  | nil => cases h
  | cons o' os ih =>
    have hread := (hos o' List.mem_cons_self).readResource hs resource
    rw [resolveIn] at h
    split at h
    · cases h
    · rename_i he
      rw [he] at hread
      obtain ⟨rfl, rfl⟩ := Prod.mk.inj (Option.some.inj (Except.ok.inj h))
      exact ⟨List.mem_cons_self, hread.1.symm⟩
    · rename_i he
      rw [he] at hread
      obtain ⟨ho, hfound⟩ :=
        ih (fun o' ho' => hos o' (List.mem_cons_of_mem _ ho')) hread.2 h
      exact ⟨List.mem_cons_of_mem o' ho, hfound⟩

end Registry

namespace Origin

variable {t : FileTree} {o : Origin} {s s' : LookupState}

/-- Looking at an archive opens no view of another one. -/
theorem get?_view_of_ne {q : Path} (h : q.components ≠ o.location.components) :
    (o.view t s).2.archives.get? q = s.archives.get? q := by
  unfold Origin.view
  rcases ArchiveTable.openView_cases t o.location s.archives with
      ⟨i, hg, ho⟩ | ⟨e, hg, hi, ho⟩ | ⟨i, hg, hi, ho⟩
  · rw [ho]
  · rw [ho]
    rfl
  · rw [ho]
    exact (ArchiveTable.get?_insertIfAbsent _ _ _ _).trans (if_neg h)

/-- What an archive is seen as depends on no view but its own. -/
theorem view_congr (h : s'.archives.get? o.location = s.archives.get? o.location) :
    (o.view t s').1 = (o.view t s).1 := by
  have hnew {a : ArchiveTable} {i : ArchiveIndex} (ha : a.get? o.location = none) :
      (a.insertIfAbsent o.location i).get? o.location = some i := by
    rw [ArchiveTable.get?_insertIfAbsent, if_pos rfl, ha, Option.getD_none]
  unfold Origin.view ArchiveTable.openView
  rw [h]
  cases hg : s.archives.get? o.location with
  | some i => rfl
  | none =>
    cases hi : ArchiveIndex.ofPath t o.location with
    | error e => rfl
    | ok i => simp only [hnew hg, hnew (h.trans hg)]

/-- What an archive was seen as once, it is seen as while its view is live. -/
theorem view_again
    (h : s'.archives.get? o.location = (o.view t s).2.archives.get? o.location) :
    (o.view t s').1 = (o.view t s).1 := by
  have hlive : ∀ i, s'.archives.get? o.location = some i → (o.view t s').1 = some i := by
    intro i hi
    unfold Origin.view ArchiveTable.openView
    rw [hi]
  unfold Origin.view at h ⊢
  rcases ArchiveTable.openView_cases t o.location s.archives with
      ⟨i, hg, ho⟩ | ⟨e, hg, hi, ho⟩ | ⟨i, hg, hi, ho⟩ <;> rw [ho] at h ⊢
  · exact hlive i (h.trans hg)
  · have hnone : s'.archives.get? o.location = none := h.trans hg
    unfold ArchiveTable.openView
    rw [hnone, hi]
  · refine hlive i (h.trans ?_)
    change (s.archives.insertIfAbsent o.location i).get? o.location = some i
    rw [ArchiveTable.get?_insertIfAbsent, if_pos rfl, hg, Option.getD_none]

/-- Reading from an origin opens no view of another one. -/
theorem get?_readResource_of_ne {q : Path} (h : q.components ≠ o.location.components)
    (resource : String) :
    (o.readResource t resource s).2.archives.get? q = s.archives.get? q :=
  keeps_readResource (P := (·.archives.get? q = s.archives.get? q))
    (fun _ hs => (get?_view_of_ne h).trans hs) resource rfl

/-- What was read once is read again while the view is live. -/
theorem readResource_again {resource : String}
    (h : s'.archives.get? o.location =
      (o.readResource t resource s).2.archives.get? o.location) :
    (o.readResource t resource s').1 = (o.readResource t resource s).1 := by
  unfold Origin.readResource at h ⊢
  split
  · rfl
  · rename_i hb
    rw [if_neg hb] at h
    split
    · dsimp only
      split
      · rfl
      · split <;> rfl
    · rename_i hk
      simp only [hk] at h
      dsimp only
      rw [view_again h]

/-- Whether an origin has a resource depends on no view but its own. -/
theorem holds_congr (h : s'.archives.get? o.location = s.archives.get? o.location)
    (resource : String) : (o.holds t resource s').1 = (o.holds t resource s).1 :=
  holds_of_view_eq (view_congr h) resource

/-- Nothing is read from an origin if it does not have the resource. -/
theorem readResource_eq_none_iff {resource : String} :
    (o.readResource t resource s).1 = .ok none ↔ (o.holds t resource s).1 = false := by
  unfold Origin.readResource Origin.holds
  split
  · simp
  · split
    · dsimp only
      split
      · rename_i hf
        simpa using hf
      · rename_i hf
        have hfile : t.isFile (o.location.join resource) = true := by simpa using hf
        rw [hfile]
        split <;> simp
    · generalize o.view t s = v
      obtain ⟨i, s₁⟩ := v
      cases i with
      | none => simp
      | some i => simp [← ArchiveIndex.isSome_read?]

end Origin

namespace Registry

variable {t : FileTree} {resource : String} {os : List Origin} {s s' : LookupState}

/-- A look-up opens no view of an archive that is not searched. -/
theorem get?_resolveIn_of_ne {q : Path}
    (h : ∀ o ∈ os, q.components ≠ o.location.components) :
    (resolveIn t resource os s).2.archives.get? q = s.archives.get? q := by
  induction os generalizing s with
  | nil => rfl
  | cons o os ih =>
    have hread := Origin.get?_readResource_of_ne (t := t) (s := s) (h o List.mem_cons_self) resource
    rw [resolveIn]
    split <;> rename_i he <;> rw [he] at hread
    · exact hread
    · exact hread
    · exact (ih fun o' ho' => h o' (List.mem_cons_of_mem o ho')).trans hread

/-- A look-up in origins of different locations gives the same answer when it is repeated. -/
theorem resolveIn_again (hd : (os.map (·.location.components)).Nodup)
    (h : ∀ o ∈ os, s'.archives.get? o.location =
      (resolveIn t resource os s).2.archives.get? o.location) :
    (resolveIn t resource os s').1 = (resolveIn t resource os s).1 := by
  induction os generalizing s s' with
  | nil => rfl
  | cons o os ih =>
    rw [List.map_cons, List.nodup_cons] at hd
    have hne : ∀ o' ∈ os, o.location.components ≠ o'.location.components := by
      intro o' ho' he
      exact hd.1 (List.mem_map.2 ⟨o', ho', he.symm⟩)
    have hsame : s'.archives.get? o.location =
        (o.readResource t resource s).2.archives.get? o.location := by
      rw [h o List.mem_cons_self, resolveIn]
      split <;> rename_i he <;> rw [he]
      exact get?_resolveIn_of_ne hne
    have hread := Origin.readResource_again hsame
    rw [resolveIn] at h
    rw [resolveIn, resolveIn]
    have hkept := fun o' ho' => Origin.get?_readResource_of_ne (t := t) (s := s') (o := o)
      (Ne.symm (hne o' ho')) resource
    generalize o.readResource t resource s = r at hread h
    generalize o.readResource t resource s' = r' at hread hkept
    obtain ⟨answer, s₁⟩ := r
    obtain ⟨answer', s₁'⟩ := r'
    obtain rfl : answer' = answer := hread
    rcases answer' with e | _ | found
    · rfl
    · refine ih hd.2 fun o' ho' => ?_
      exact (hkept o' ho').trans (h o' (List.mem_cons_of_mem o ho'))
    · rfl

/-- A look-up in origins of different locations finds nothing if none of them has the resource. -/
theorem resolveIn_eq_none_iff (hd : (os.map (·.location.components)).Nodup) :
    (resolveIn t resource os s).1 = .ok none ↔ ∀ o ∈ os, (o.holds t resource s).1 = false := by
  induction os generalizing s with
  | nil => simp [resolveIn]
  | cons o os ih =>
    rw [List.map_cons, List.nodup_cons] at hd
    have hread := @Origin.readResource_eq_none_iff t o s resource
    have hothers : ∀ o' ∈ os, (o'.holds t resource (o.readResource t resource s).2).1 =
        (o'.holds t resource s).1 := by
      intro o' ho'
      have hne : o'.location.components ≠ o.location.components := by
        intro he
        exact hd.1 (List.mem_map.2 ⟨o', ho', he⟩)
      exact Origin.holds_congr (Origin.get?_readResource_of_ne hne resource) resource
    rw [resolveIn, List.forall_mem_cons, ← hread]
    generalize o.readResource t resource s = r at hothers
    obtain ⟨answer, s₁⟩ := r
    rcases answer with e | _ | found
    · simp
    · dsimp only
      rw [ih hd.2]
      constructor
      · intro h
        exact ⟨rfl, fun o' ho' => (hothers o' ho').symm.trans (h o' ho')⟩
      · rintro ⟨-, h⟩ o' ho'
        exact (hothers o' ho').trans (h o' ho')
    · simp

/-- A copy that is found lies where its origin keeps it. -/
theorem location_of_resolveIn {o : Origin} {found : Resource}
    (h : (resolveIn t resource os s).1 = .ok (some (o, found))) :
    found.location = o.locate resource := by
  induction os generalizing s with
  | nil => cases h
  | cons o' os ih =>
    rw [resolveIn] at h
    split at h
    · cases h
    · rename_i he
      obtain ⟨rfl, rfl⟩ := Prod.mk.inj (Option.some.inj (Except.ok.inj h))
      exact Origin.location_of_readResource (congrArg Prod.fst he)
    · exact ih h

end Registry

end Overlay
