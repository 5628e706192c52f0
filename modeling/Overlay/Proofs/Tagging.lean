import Overlay.Proofs.Ensemble

/-!
# Who tags an origin

A loader tags a location at its own first registration of it, so at most once, and keeps to that as
long as nobody else registers the location. The store is shared, however, and each loader looks only
at its own members. A location that a second loader registers gets that loader's tag, in place of
the tag that it had, and from then on counts as early, or not, for all of them.
-/

namespace Overlay

/-- A tag that a loader gives to a location when it registers it. -/
structure Stamp where
  /-- The loader. -/
  party : Party
  /-- The tag. -/
  tag : OriginTag
  deriving DecidableEq

namespace Ensemble

variable {φ β : Type} {b : Blueprint φ β} {y : Ensemble φ β} {p : Path}

/-- The tag that an occurrence gives to a location: it registers a path that leads to the location,
with a tag, at a loader that has not registered the location. -/
def stamp? (p : Path) (y : Ensemble φ β) (o : Occurrence) : Option Stamp :=
  match o.registration? with
  | some (party, q, some tag) =>
    match y.registryOf? party, Registry.originAt y.tree q with
    | some r, .ok origin =>
      if origin.location.components = p.components ∧ r.contains origin.location = false then
        some ⟨party, tag⟩
      else none
    | _, _ => none
  | _ => none

/-- The tags that are given to a location in a run, in their order. -/
def stamps (b : Blueprint φ β) (p : Path) (y : Ensemble φ β) : List Occurrence → List Stamp
  | [] => []
  | o :: os => (y.stamp? p o).toList ++ stamps b p (y.step b o) os

/-- The tag of a location is the one that it is given, or else the one that it had. -/
theorem tag_step (b : Blueprint φ β) (y : Ensemble φ β) (o : Occurrence) (p : Path) :
    (y.step b o).pipeline.tags.get? p =
      ((y.stamp? p o).map (·.tag)).or (y.pipeline.tags.get? p) := by
  unfold stamp?
  cases ho : o.registration? with
  | none =>
    rw [tags_step_of_unregistered ho]
    rfl
  | some registration =>
    obtain ⟨party, q, tag⟩ := registration
    cases hr : y.registryOf? party with
    | none =>
      rw [step_of_registration_none ho hr]
      cases tag with
      | none => rfl
      | some tag => simp only [hr, Option.map_none, Option.none_or]
    | some r =>
      rw [(step_of_registration ho hr).1]
      rcases Registry.register_cases y.tree q tag r y.pipeline.tags with ⟨e, he, h⟩ | ⟨o', ho', h⟩
      · rw [h]
        cases tag with
        | none => rfl
        | some tag => simp only [hr, he, Option.map_none, Option.none_or]
      · rw [h, Registry.get?_insert_tags]
        cases tag with
        | none => split <;> rfl
        | some tag =>
          simp only [hr, ho']
          split <;> rfl

/-- After a run a location has the tag that it was given last, or else the one that it had. -/
theorem tag_run (b : Blueprint φ β) (y : Ensemble φ β) (os : List Occurrence) (p : Path) :
    (y.run b os).pipeline.tags.get? p =
      ((y.stamps b p os).getLast?.map (·.tag)).or (y.pipeline.tags.get? p) := by
  induction os generalizing y with
  | nil => rfl
  | cons o os ih =>
    rw [run_cons, ih, tag_step, stamps]
    cases y.stamp? p o with
    | none => rfl
    | some s =>
      rw [Option.toList_some, List.singleton_append, List.getLast?_cons]
      cases (stamps b p (y.step b o) os).getLast? <;> rfl

/-- Who gives a location a tag is asked to register a path that leads there, with the tag, and has
not registered the location. -/
theorem registration_of_stamp {o : Occurrence} {s : Stamp} (h : y.stamp? p o = some s) :
    ∃ q r origin, o.registration? = some (s.party, q, some s.tag) ∧
      y.registryOf? s.party = some r ∧ Registry.originAt y.tree q = .ok origin ∧
      origin.location.components = p.components ∧ r.contains origin.location = false := by
  unfold stamp? at h
  split at h
  · rename_i party q tag ho
    split at h
    · rename_i r origin hr hat
      split at h
      · rename_i hnew
        obtain rfl := Option.some.inj h
        exact ⟨q, r, origin, ho, hr, hat, hnew.1, hnew.2⟩
      · cases h
    · cases h
  · cases h

/-- Who gives a location a tag registers it just then. -/
theorem registered_of_stamp {o : Occurrence} {s : Stamp} (h : y.stamp? p o = some s) :
    y.registered s.party p = false ∧ (y.step b o).registered s.party p = true := by
  obtain ⟨q, r, origin, ho, hr, hat, hp, hnew⟩ := registration_of_stamp h
  obtain ⟨-, hregistries⟩ := step_of_registration (b := b) ho hr
  have hregister : (r.register y.tree q (some s.tag) y.pipeline.tags).2.1 = r.append origin := by
    unfold Registry.register
    rw [hat]
    dsimp only
    rw [Registry.insert_registry, hnew]
    rfl
  unfold registered
  rw [hregistries s.party, if_pos rfl, hregister, hr]
  constructor
  · rw [Option.any_some, r.contains_congr hp.symm]
    exact hnew
  · rw [Option.any_some]
    exact Registry.contains_append_iff.2 (Or.inl hp.symm)

/-- Each loader gives a location a tag at most once, and none if it has registered it before. -/
theorem stamps_once (b : Blueprint φ β) (y : Ensemble φ β) (os : List Occurrence) (p : Path) :
    ((y.stamps b p os).map (·.party)).Nodup ∧
      ∀ s ∈ y.stamps b p os, y.registered s.party p = false := by
  induction os generalizing y with
  | nil => exact ⟨List.nodup_nil, nofun⟩
  | cons o os ih =>
    obtain ⟨hnodup, hnew⟩ := ih (y.step b o)
    -- registering is for good, so who tags the location later has not registered it by now
    have hbefore : ∀ s ∈ stamps b p (y.step b o) os, y.registered s.party p = false := by
      intro s hs
      cases hr : y.registered s.party p with
      | false => rfl
      | true =>
        have hafter := registered_step (b := b) hr o
        rw [hnew s hs] at hafter
        cases hafter
    rw [stamps]
    cases hstamp : y.stamp? p o with
    | none => exact ⟨hnodup, hbefore⟩
    | some s =>
      obtain ⟨hfresh, hnow⟩ := registered_of_stamp (b := b) hstamp
      rw [Option.toList_some, List.singleton_append, List.map_cons, List.nodup_cons]
      refine ⟨⟨?_, hnodup⟩, ?_⟩
      · intro hmem
        obtain ⟨s', hs', hparty⟩ := List.mem_map.1 hmem
        have hother := hnew s' hs'
        rw [hparty, hnow] at hother
        cases hother
      · rintro s' (_ | ⟨_, hs'⟩)
        · exact hfresh
        · exact hbefore s' hs'

/-- Whatever is read off a tag stays the same as long as it is the same for all tags that are
given later. -/
theorem tag_kept_iff_forall {γ : Type} (read : OriginTag → γ) {c : γ}
    (h : (y.pipeline.tags.get? p).map read = some c) (later : List Occurrence) :
    (∀ reached, reached <+: later →
        ((y.run b reached).pipeline.tags.get? p).map read = some c) ↔
      ∀ s ∈ y.stamps b p later, read s.tag = c := by
  induction later generalizing y with
  | nil => simpa [stamps, List.prefix_nil, run] using h
  | cons o later ih =>
    have hstep := tag_step b y o p
    have hcons : (∀ reached, reached <+: o :: later →
        ((y.run b reached).pipeline.tags.get? p).map read = some c) ↔
        ∀ reached, reached <+: later →
          (((y.step b o).run b reached).pipeline.tags.get? p).map read = some c := by
      constructor
      · intro hall reached hreached
        exact hall (o :: reached) (List.cons_prefix_cons.2 ⟨rfl, hreached⟩)
      · intro hall reached hreached
        cases reached with
        | nil => exact h
        | cons o' reached =>
          obtain ⟨rfl, hlater⟩ := List.cons_prefix_cons.1 hreached
          exact hall reached hlater
    rw [hcons, stamps]
    cases hstamp : y.stamp? p o with
    | none =>
      rw [hstamp, Option.map_none, Option.none_or] at hstep
      rw [← hstep] at h
      exact ih h
    | some s =>
      rw [hstamp, Option.map_some, Option.some_or] at hstep
      rw [Option.toList_some, List.singleton_append, List.forall_mem_cons]
      constructor
      · intro hall
        have hs : read s.tag = c := by
          have hnow := hall [] List.nil_prefix
          rw [run, List.foldl_nil, hstep] at hnow
          exact Option.some.inj hnow
        refine ⟨hs, (ih ?_).1 hall⟩
        rw [hstep, Option.map_some, hs]
      · rintro ⟨hs, hlater⟩
        refine (ih ?_).2 hlater
        rw [hstep, Option.map_some, hs]

/-- A symbol came from an early origin exactly if its code source has an early tag. -/
theorem isEarly_of_tag {tags : TagStore} {x : Symbol} {tag : OriginTag}
    (hx : x.codeSource = some p) (h : tags.get? p = some tag) :
    Precedence.isEarly tags x = tag.isEarly := by
  rw [Precedence.isEarly, hx, Option.bind_some, h, Option.any_some]

/-- A location with a tag never loses it without getting another one. -/
theorem tag_run_of_some {tag : OriginTag} (h : y.pipeline.tags.get? p = some tag)
    (b : Blueprint φ β) (os : List Occurrence) :
    ∃ tag', (y.run b os).pipeline.tags.get? p = some tag' := by
  rw [tag_run, h]
  cases (y.stamps b p os).getLast? with
  | none => exact ⟨tag, rfl⟩
  | some s => exact ⟨s.tag, rfl⟩

/-- In every run the tag of a location is the one that it was given last, and each loader gives it
one at most once. So a tag stays, or stays early or not, exactly as long as each loader that
registers the location later on gives it a tag that is the same, or as early. -/
theorem tag_kept_iff (b : Blueprint φ β) (t : FileTree) (f : φ) (g : β)
    (os later : List Occurrence) {p : Path} {tag : OriginTag} :
    let y₀ := start b t f g
    let y := y₀.run b os
    y.pipeline.tags.get? p = some tag →
      (y₀.stamps b p os).getLast?.map (·.tag) = some tag ∧
      ((y₀.stamps b p (os ++ later)).map (·.party)).Nodup ∧
      ((∀ reached, reached <+: later → (y.run b reached).pipeline.tags.get? p = some tag) ↔
        ∀ s ∈ y.stamps b p later, s.tag = tag) ∧
      ∀ x : Symbol, x.codeSource = some p →
        ((∀ reached, reached <+: later →
            Precedence.isEarly (y.run b reached).pipeline.tags x = tag.isEarly) ↔
          ∀ s ∈ y.stamps b p later, s.tag.isEarly = tag.isEarly) := by
  intro y₀ y h
  have hlast := tag_run b y₀ os p
  rw [show (y₀.run b os).pipeline.tags.get? p = some tag from h,
    show y₀.pipeline.tags.get? p = none from rfl, Option.or_none] at hlast
  refine ⟨hlast.symm, (stamps_once b y₀ (os ++ later) p).1, ?_, fun x hx => ?_⟩
  · have hkept := tag_kept_iff_forall (b := b) (@id OriginTag) (by rw [h]; rfl) later
    simpa using hkept
  · rw [← tag_kept_iff_forall (b := b) (·.isEarly) (by rw [h]; rfl) later]
    refine forall₂_congr fun reached _ => ?_
    obtain ⟨tag', htag'⟩ := tag_run_of_some h b reached
    rw [isEarly_of_tag hx htag', htag', Option.map_some, Option.some.injEq]

/-- A tag stays when a second module loader adds the location, for it gives the same one, and when
the pipeline registers it without a tag. -/
theorem tag_kept_of_same_tag :
    let t : FileTree := ⟨[(["ext"], .directory)], []⟩
    let b : Blueprint Memory Memory := ⟨{}, Memory.loader, Memory.bootstrapLoader⟩
    let os : List Occurrence := [.join "a", .join "b", .module 0 (.addOrigin ⟨"/ext"⟩)]
    let later : List Occurrence :=
      [.module 1 (.addOrigin ⟨"/ext/."⟩), .parent (.request (.register ⟨"/ext"⟩ none))]
    let y := (start b t Memory.empty Memory.empty).run b os
    y.pipeline.tags.get? ⟨"/ext"⟩ = some .moduleLocal ∧
      y.stamps b ⟨"/ext"⟩ later = [⟨.module 1, .moduleLocal⟩] ∧
      ∀ reached, reached <+: later →
        (y.run b reached).pipeline.tags.get? ⟨"/ext"⟩ = some .moduleLocal := by
  intro t b os later y
  have h : y.pipeline.tags.get? ⟨"/ext"⟩ = some .moduleLocal := by decide +kernel
  have hstamps : y.stamps b ⟨"/ext"⟩ later = [⟨.module 1, .moduleLocal⟩] := by decide +kernel
  obtain ⟨-, -, hkept, -⟩ := tag_kept_iff b t Memory.empty Memory.empty os later h
  refine ⟨h, hstamps, hkept.2 fun s hs => ?_⟩
  rw [show stamps b ⟨"/ext"⟩ _ later = [⟨.module 1, .moduleLocal⟩] from hstamps] at hs
  rw [List.mem_singleton.1 hs]

/-- An early origin of the pipeline becomes a local one for all loaders when a module loader adds
it to its own, although the pipeline registered it first and nobody wrote to the store. -/
theorem early_origin_becomes_local :
    let t : FileTree := ⟨[(["ext"], .directory)], []⟩
    let b : Blueprint Memory Memory := ⟨{}, Memory.loader, Memory.bootstrapLoader⟩
    let os : List Occurrence :=
      [.parent (.request (.register ⟨"/ext"⟩ (some .early))), .join "mods"]
    let y := (start b t Memory.empty Memory.empty).run b os
    let y' := y.step b (.module 0 (.addOrigin ⟨"/ext"⟩))
    y.pipeline.tags.get? ⟨"/ext"⟩ = some .early ∧
      y'.pipeline.tags.get? ⟨"/ext"⟩ = some .moduleLocal ∧
      ∀ x : Symbol, x.codeSource = some ⟨"/ext"⟩ →
        Precedence.isEarly y.pipeline.tags x = true ∧
          Precedence.isEarly y'.pipeline.tags x = false := by
  intro t b os y y'
  have h : y.pipeline.tags.get? ⟨"/ext"⟩ = some .early := by decide +kernel
  have h' : y'.pipeline.tags.get? ⟨"/ext"⟩ = some .moduleLocal := by decide +kernel
  exact ⟨h, h', fun x hx => ⟨isEarly_of_tag hx h, isEarly_of_tag hx h'⟩⟩

end Ensemble

end Overlay
