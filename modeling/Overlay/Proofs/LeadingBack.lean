import Overlay.Proofs.Ahead
import Overlay.Proofs.SharedRegistry
import Overlay.Proofs.Spelling

/-!
# From resources back to their origins

The code source of a resource that an origin has should be the origin. For an entry of an archive it
is. For a file it is the directory exactly if no part of the resource's name is a dot: looking the
name up skips dots, and so does going up from the file, but the number of steps up counts them. Any
dot leads out of the directory, to where it lies or further up.
-/

namespace Overlay

open FileTree

namespace FileTree

variable {t : FileTree} {place above below : Place}

/-- A step up from a place leads to the place it lies in. -/
theorem parent?_pathOf_append {name : String} (h : ∀ step ∈ place ++ [name], IsPlain step) :
    (pathOf (place ++ [name])).parent? = some (pathOf place) := by
  have habove : ∀ step ∈ place, IsPlain step := fun step hstep =>
    h step (List.mem_append_left _ hstep)
  have hname : IsPlain name := h name (List.mem_append_right _ List.mem_cons_self)
  have hslash := slashless_of_isPlain h
  rw [List.map_append, List.map_singleton] at hslash
  rw [pathOf_eq_absolute, pathOf_eq_absolute, List.map_append, List.map_singleton,
    Path.parent?_absolute hslash hname.not_idle,
    Path.dropIdleEnd_eq_self (not_idle_of_isPlain habove)]

/-- Steps up from a place lead to one above it. -/
theorem above_of_ancestor? (h : ∀ step ∈ place, IsPlain step) {n : Nat} {p : Path}
    (hp : (pathOf place).ancestor? (n + 1) = some p) :
    ∃ above below, place = above ++ below ∧ below ≠ [] ∧ p = pathOf above := by
  induction place using List.reverseRecOn generalizing n with
  | nil => cases hp
  | append_singleton place name ih =>
    rw [Path.ancestor?, parent?_pathOf_append h, Option.bind_some] at hp
    cases n with
    | zero => exact ⟨place, [name], rfl, List.cons_ne_nil name [], (Option.some.inj hp).symm⟩
    | succ n =>
      obtain ⟨above, below, rfl, -, rfl⟩ := ih (fun step hstep => h step (by simp [hstep])) hp
      exact ⟨above, below ++ [name], List.append_assoc _ _ _, by simp, rfl⟩

/-- No place above a settled one leads down to it, also when the files have changed. -/
theorem Settled.realPath_above_ne {t₀ : FileTree} (h : Settled t₀ (above ++ below))
    (hne : below ≠ []) :
    (match t.realPath (pathOf above) with
      | .ok path => path
      | .error _ => pathOf above) ≠ pathOf (above ++ below) := by
  intro he
  have hself : pathOf above = pathOf (above ++ below) := by
    split at he
    · -- the place it leads down to is settled now, and so is every place above it
      rename_i q hq
      obtain ⟨place, hresolve, rfl⟩ := resolve_of_realPath hq
      have hplace := settled_of_resolve_pathOf hresolve
      obtain rfl := hplace.eq_of_components h (congrArg Path.components he)
      have hreal := hplace.of_append.realPath_pathOf
      rw [hq] at hreal
      exact hreal.symm.trans he
    · exact he
  have hplace := h.of_append.eq_of_components h (congrArg Path.components hself)
  exact hne (List.self_eq_append_right.1 hplace)

end FileTree

namespace Origin

variable {t : FileTree} {s : LookupState} {o : Origin} {resource : String}

/-- A directory has the files that stand below it. -/
theorem holds_iff_of_directory (hk : o.kind = .directory) :
    (o.holds t resource s).1 = true ↔
      Path.staysBelow resource = true ∧ t.isFile (o.location.join resource) = true := by
  rw [holds, hk]
  cases Path.staysBelow resource <;> simp

/-- The code source of what an origin has is the origin, unless it is a directory and a part of the
name is a dot. -/
theorem codeSource?_locate_eq_iff (hreal : o.location.IsReal)
    (hself : ∀ p, t.realPath o.location = .ok p → p = o.location)
    (hheld : (o.holds t resource s).1 = true) :
    (o.locate resource).codeSource? t resource = some o.location ↔
      o.kind = .archive ∨ ['.'] ∉ Path.partsOf resource := by
  have hlocation : (match t.realPath o.location with
      | .ok path => path
      | .error _ => o.location) = o.location := by
    split
    · rename_i p hp
      exact hself p hp
    · rfl
  cases hk : o.kind with
  | archive =>
    rw [locate, hk]
    exact iff_of_true (congrArg some hlocation) (Or.inl rfl)
  | directory =>
    obtain ⟨hbelow, hfile⟩ := (holds_iff_of_directory hk).1 hheld
    obtain ⟨t₀, place, hplace, hpath⟩ := hreal
    have hlocate : o.locate resource = .file ((pathOf place).join resource) := by
      rw [locate, hk, hpath]
    rw [hpath] at hfile hlocation
    have hup : ((pathOf place).join resource).ancestor? (Location.depth resource) =
        (pathOf place).ancestor? ((Path.partsOf resource).count ['.']) :=
      hplace.ancestor?_join hbelow hfile
    rw [hlocate, hpath, Location.codeSource?, Location.holder?, hup]
    simp only [reduceCtorEq, false_or]
    constructor
    · intro hsource hdot
      obtain ⟨n, hcount⟩ := Nat.exists_eq_add_one.2 (List.count_pos_iff.2 hdot)
      rw [hcount] at hsource
      obtain ⟨p, hp, he⟩ := Option.map_eq_some_iff.1 hsource
      obtain ⟨above, below, rfl, hne, rfl⟩ := above_of_ancestor? hplace.isPlain hp
      exact hplace.realPath_above_ne hne he
    · intro hdots
      rw [List.count_eq_zero_of_not_mem hdots]
      exact congrArg some hlocation

end Origin

namespace SharedRegistry

variable {y : SharedRegistry}

/-- All origins are known by real paths, also those that calls have found and not inserted yet, and
the files have a real working directory. -/
structure IsReal (y : SharedRegistry) : Prop where
  /-- The working directory is a real path. -/
  directory : y.tree.HasRealWorkingDirectory
  /-- So are the locations of the origins. -/
  registry : y.registry.IsReal
  /-- So are those of the origins that are found. -/
  found : ∀ c ∈ y.calls, ∀ o, c.stage = .found o → o.location.IsReal

/-- A call may move to any stage in which the origin it has found is known by a real path. -/
theorem IsReal.moveTo (h : y.IsReal) (i : Nat) (c : RegisterCall) {stage : RegisterStage}
    (hstage : ∀ o, stage = .found o → o.location.IsReal) : (y.moveTo i c stage).IsReal where
  directory := h.directory
  registry := h.registry
  found := by
    intro c' hc o ho
    rcases List.mem_or_eq_of_mem_set hc with hc | rfl
    · exact h.found c' hc o ho
    · exact hstage o ho

/-- Whatever a call does next, origins stay known by real paths. -/
theorem IsReal.advance (h : y.IsReal) {i : Nat} {c : RegisterCall} (hi : y.calls[i]? = some c) :
    (y.step (.advance i)).IsReal := by
  have hfound : ∀ o, c.stage = .found o → o.location.IsReal :=
    h.found c (List.mem_of_getElem? hi)
  have hmoves := moves_advance hi
  generalize y.step (.advance i) = y' at hmoves ⊢
  cases hmoves with
  | @finds o arrived available =>
    refine h.moveTo i c fun o' ho => ?_
    obtain rfl := RegisterStage.found.inj ho
    exact Origin.isReal_of_ofPath h.directory available
  | fails arrived unavailable => exact h.moveTo i c nofun
  | @enters o found new =>
    have hentered : (y.enter o c.tag).IsReal := by
      refine ⟨h.directory, fun o' ho => ?_, h.found⟩
      rcases List.mem_append.1 ho with ho | ho
      · exact h.registry o' ho
      · obtain rfl := List.mem_singleton.1 ho
        exact hfound _ found
    exact hentered.moveTo i c nofun
  | repeats found known => exact h.moveTo i c nofun
  | stays ended => exact h

/-- Whatever happens next, origins stay known by real paths while the files have a real working
directory. -/
theorem IsReal.step (h : y.IsReal) {a : RegistryAction}
    (ha : ∀ t, a = .files t → t.HasRealWorkingDirectory) : (y.step a).IsReal := by
  cases a with
  | call path tag =>
    refine ⟨h.directory, h.registry, fun c hc o ho => ?_⟩
    rcases List.mem_append.1 hc with hc | hc
    · exact h.found c hc o ho
    · rw [List.mem_singleton.1 hc] at ho
      cases ho
  | advance i =>
    cases hi : y.calls[i]? with
    | none => simpa only [SharedRegistry.step, hi] using h
    | some c => exact h.advance hi
  | snapshot => exact ⟨h.directory, h.registry, h.found⟩
  | search k how resource =>
    rw [SharedRegistry.step]
    split
    · exact ⟨h.directory, h.registry, h.found⟩
    · exact h
  | tagElsewhere location tag => exact ⟨h.directory, h.registry, h.found⟩
  | files t => exact ⟨ha t rfl, h.registry, h.found⟩

/-- While all files have a real working directory, all origins are known by real paths. -/
theorem real_run {t : FileTree} (hw : t.HasRealWorkingDirectory) {as : List RegistryAction}
    (has : ∀ t', .files t' ∈ as → t'.HasRealWorkingDirectory) : ((start t).run as).IsReal :=
  List.foldlRecOn as SharedRegistry.step ⟨hw, nofun, nofun⟩
    fun _ h _ ha => h.step fun t' he => has t' (he ▸ ha)

end SharedRegistry

/-- A resource leads back from where an origin keeps it to the origin, which is registered. -/
structure Registry.LeadsBack (t : FileTree) (r : Registry) (o : Origin) (resource : String) :
    Prop where
  /-- The code source is the origin's location. -/
  codeSource?_eq : (o.locate resource).codeSource? t resource = some o.location
  /-- So the resource counts as one of a registered origin. -/
  isShadowed : r.isShadowed t (o.locate resource) resource = true

/-- In every registry that calls, snapshots, searches and changes of the files lead to, what an
origin has leads back to it if and only if the origin is an archive or no part of the resource's
name is a dot, on all files on which the location of the origin still leads to itself as far as it
leads anywhere, and through all views. -/
theorem SharedRegistry.leadsBack_iff_run {t₀ : FileTree} (hw : t₀.HasRealWorkingDirectory)
    {as : List RegistryAction} (has : ∀ t', .files t' ∈ as → t'.HasRealWorkingDirectory)
    {o : Origin} (ho : o ∈ ((start t₀).run as).registry.order) {t : FileTree}
    (hself : ∀ p, t.realPath o.location = .ok p → p = o.location) {resource : String}
    {s : LookupState} (hheld : (o.holds t resource s).1 = true) :
    ((start t₀).run as).registry.LeadsBack t o resource ↔
      o.kind = .archive ∨ ['.'] ∉ Path.partsOf resource := by
  have hreal := (real_run hw has).registry o ho
  rw [← Origin.codeSource?_locate_eq_iff hreal hself hheld]
  refine ⟨fun h => h.codeSource?_eq, fun h => ⟨h, ?_⟩⟩
  rw [Registry.isShadowed, h]
  exact (sound_run t₀ as).consistent.contains_of_mem ho

namespace DottedName

/-- A directory with a file two levels down. -/
def tree : FileTree :=
  ⟨[(["d"], .directory), (["d", "a"], .directory), (["d", "a", "m"], .file "1".toUTF8)], []⟩

/-- The directory is registered. -/
def registrations : List RegistryAction := [.call ⟨"/d"⟩ none, .advance 0, .advance 0]

/-- The registry. -/
def registry : Registry := ((SharedRegistry.start tree).run registrations).registry

/-- The directory. -/
def origin : Origin := ⟨⟨"/d"⟩, .directory⟩

/-- A slash too many does not lead astray. -/
theorem doubled_slash_leads_back :
    origin ∈ registry.order ∧ (origin.holds tree "a//m" .empty).1 = true ∧
      registry.LeadsBack tree origin "a//m" := by
  have hmem : origin ∈ registry.order := by decide +kernel
  have hheld : (origin.holds tree "a//m" .empty).1 = true := by decide +kernel
  have hself : ∀ p, tree.realPath origin.location = .ok p → p = origin.location := by
    have hreal : tree.realPath origin.location = .ok origin.location := by decide +kernel
    intro p hp
    exact Except.ok.inj (hp.symm.trans hreal)
  have hfiles : ∀ t', .files t' ∈ registrations → t'.HasRealWorkingDirectory := by
    simp [registrations]
  exact ⟨hmem, hheld, (SharedRegistry.leadsBack_iff_run (fun _ => rfl) hfiles hmem hself hheld).2
    (Or.inr (by decide +kernel))⟩

/-- A dot does: the file is found, but its code source is what the directory lies in, so it does not
count as one of a registered origin. -/
theorem dot_leads_further_up :
    origin ∈ registry.order ∧ tree.realPath origin.location = .ok origin.location ∧
      (origin.holds tree "a/./m" .empty).1 = true ∧
      (origin.locate "a/./m").codeSource? tree "a/./m" = some ⟨"/"⟩ ∧
      registry.isShadowed tree (origin.locate "a/./m") "a/./m" = false := by
  decide +kernel

end DottedName

end Overlay
