import Mathlib.Data.List.Nodup
import Overlay.Proofs.Registration
import Overlay.Proofs.Slots

/-!
# Registering at the same time

Many calls may register origins in one registry at once. A call first finds the origin that its path
leads to, and then inserts it while it holds the registry's lock. Between the two steps other calls
move on, snapshots are taken and searched, other registries that share the tags give theirs, and
files change. `register_alone` ties the two steps to the registration that nothing interrupts.
-/

namespace Overlay

/-- Where a call to register an origin stands. -/
inductive RegisterStage where
  /-- It looks for the origin that its path leads to. -/
  | arrived
  /-- It has found the origin and waits to insert it. -/
  | found (o : Origin)
  /-- Its path led to no origin. -/
  | failed (cause : IoError)
  /-- It has told whether the origin was new. -/
  | returned (o : Origin) (new : Bool)

/-- A call to register an origin. -/
structure RegisterCall where
  /-- The path of the origin. -/
  path : Path
  /-- The tag for its location. -/
  tag : Option OriginTag
  /-- Where the call stands. -/
  stage : RegisterStage

/-- What a call has answered, if it is over. -/
def RegisterCall.answer? (c : RegisterCall) : Option (Except LoadError Bool) :=
  match c.stage with
  | .failed cause => some (.error (.originUnavailable c.path cause))
  | .returned _ new => some (.ok new)
  | _ => none

namespace RegisterCall

variable {c : RegisterCall}

theorem answer?_of_arrived (h : c.stage = .arrived) : c.answer? = none := by rw [answer?, h]

theorem answer?_of_found {o : Origin} (h : c.stage = .found o) : c.answer? = none := by
  rw [answer?, h]

end RegisterCall

/-- A way to look through the origins of a registry. -/
inductive Search where
  /-- For the first location of a resource. -/
  | find
  /-- For all locations. -/
  | findAll
  /-- For the first content. -/
  | resolve
  /-- For all contents. -/
  | resolveAll

/-- The views and notices that a search leaves. -/
def Search.leaves (t : FileTree) (r : Registry) (resource : String) (s : LookupState) :
    Search → LookupState
  | find => (r.find? t resource s).2
  | findAll => (r.findAll t resource s).2
  | resolve => (r.resolve? t resource s).2
  | resolveAll => (r.resolveAll t resource s).2

/-- A registry, its files and tags, and all calls and snapshots that there ever were. -/
structure SharedRegistry where
  /-- The files. -/
  tree : FileTree
  /-- The registry. -/
  registry : Registry
  /-- The tags, which other registries share. -/
  tags : TagStore
  /-- The live archive views and the notices. -/
  lookups : LookupState
  /-- The snapshots of the registry, oldest first. -/
  snapshots : List Registry
  /-- The calls, in order of arrival. -/
  calls : List RegisterCall
  /-- The locations that other registries have tagged. -/
  foreign : List PathKey

/-- What happens next to a shared registry. -/
inductive RegistryAction where
  /-- A call arrives. -/
  | call (path : Path) (tag : Option OriginTag)
  /-- A call takes its next step. -/
  | advance (i : Nat)
  /-- A snapshot is taken. -/
  | snapshot
  /-- A snapshot is searched. -/
  | search (k : Nat) (how : Search) (resource : String)
  /-- Another registry tags a location. -/
  | tagElsewhere (location : Path) (tag : OriginTag)
  /-- The files change. -/
  | files (t : FileTree)

namespace SharedRegistry

/-- An empty registry without calls. -/
def start (t : FileTree) : SharedRegistry :=
  ⟨t, Registry.empty, TagStore.empty, LookupState.empty, [], [], []⟩

/-- Put a call into a stage. -/
def moveTo (y : SharedRegistry) (i : Nat) (c : RegisterCall) (stage : RegisterStage) :
    SharedRegistry := { y with calls := y.calls.set i { c with stage } }

/-- Add an origin at the end and give its location a tag. -/
def enter (y : SharedRegistry) (o : Origin) (tag : Option OriginTag) : SharedRegistry :=
  { y with
    registry := y.registry.append o
    tags := tag.elim y.tags (y.tags.put o.location) }

/-- Let a call take its next step. -/
def advance (y : SharedRegistry) (i : Nat) (c : RegisterCall) : SharedRegistry :=
  match c.stage with
  | .arrived =>
    match Origin.ofPath y.tree c.path with
    | .ok o => y.moveTo i c (.found o)
    | .error cause => y.moveTo i c (.failed cause)
  | .found o =>
    let (new, registry, tags) := Registry.insert o c.tag y.registry y.tags
    { y with registry, tags }.moveTo i c (.returned o new)
  | _ => y

/-- Let one thing happen. -/
def step (y : SharedRegistry) : RegistryAction → SharedRegistry
  | .call path tag => { y with calls := y.calls ++ [⟨path, tag, .arrived⟩] }
  | .advance i =>
    match y.calls[i]? with
    | some c => y.advance i c
    | none => y
  | .snapshot => { y with snapshots := y.snapshots ++ [y.registry] }
  | .search k how resource =>
    match y.snapshots[k]? with
    | some r => { y with lookups := how.leaves y.tree r resource y.lookups }
    | none => y
  | .tagElsewhere location tag =>
    { y with
      tags := y.tags.put location tag
      foreign := location.components :: y.foreign }
  | .files t => { y with tree := t }

/-- Let things happen in turn. -/
def run (y : SharedRegistry) (as : List RegistryAction) : SharedRegistry := as.foldl step y

/-- What the next step of a call can do. -/
inductive Moves (y : SharedRegistry) (i : Nat) (c : RegisterCall) : SharedRegistry → Prop
  /-- It finds the origin. -/
  | finds {o : Origin} (arrived : c.stage = .arrived)
      (available : Origin.ofPath y.tree c.path = .ok o) : Moves y i c (y.moveTo i c (.found o))
  /-- It fails, and leaves everything else as it is. -/
  | fails {cause : IoError} (arrived : c.stage = .arrived)
      (unavailable : Origin.ofPath y.tree c.path = .error cause) :
      Moves y i c (y.moveTo i c (.failed cause))
  /-- It enters a new origin. -/
  | enters {o : Origin} (found : c.stage = .found o)
      (new : y.registry.contains o.location = false) :
      Moves y i c ((y.enter o c.tag).moveTo i c (.returned o true))
  /-- It finds the location registered, and leaves everything else as it is. -/
  | repeats {o : Origin} (found : c.stage = .found o)
      (known : y.registry.contains o.location = true) :
      Moves y i c (y.moveTo i c (.returned o false))
  /-- It is over. -/
  | stays (ended : c.answer?.isSome = true) : Moves y i c y

variable {y y' : SharedRegistry} {i j : Nat} {c : RegisterCall}

theorem step_advance (h : y.calls[i]? = some c) : y.step (.advance i) = y.advance i c := by
  simp only [step, h]

/-- The next step of a call does one of these. -/
theorem moves_advance (h : y.calls[i]? = some c) : y.Moves i c (y.step (.advance i)) := by
  obtain ⟨path, tag, stage⟩ := c
  rw [step_advance h]
  unfold advance
  cases stage with
  | arrived =>
    cases hat : Origin.ofPath y.tree path with
    | ok o => exact .finds rfl hat
    | error cause => exact .fails rfl hat
  | found o =>
    cases hc : y.registry.contains o.location with
    | true =>
      simp only [Registry.insert, hc, if_true]
      exact .repeats rfl hc
    | false =>
      simp only [Registry.insert, hc, Bool.false_eq_true, if_false]
      cases tag with
      | none => exact .enters (c := ⟨path, none, .found o⟩) rfl hc
      | some tag => exact .enters (c := ⟨path, some tag, .found o⟩) rfl hc
  | failed cause => exact .stays rfl
  | returned o new => exact .stays rfl

theorem call_moveTo_self (h : y.calls[i]? = some c) (stage : RegisterStage) :
    (y.moveTo i c stage).calls[i]? = some { c with stage } :=
  List.getElem?_set_self (List.getElem?_eq_some_iff.1 h).1

theorem call_moveTo_of_ne (h : j ≠ i) (stage : RegisterStage) :
    (y.moveTo i c stage).calls[j]? = y.calls[j]? := List.getElem?_set_ne h.symm

/-- A call that nothing interrupts ends with the registry, the tags and the answer of the whole
registration. -/
theorem register_alone {path : Path} {tag : Option OriginTag}
    (h : y.calls[i]? = some ⟨path, tag, .arrived⟩) :
    let y' := (y.step (.advance i)).step (.advance i)
    let result := y.registry.register y.tree path tag y.tags
    y'.registry = result.2.1 ∧ y'.tags = result.2.2 ∧
      y'.calls[i]?.bind RegisterCall.answer? = some result.1 := by
  unfold Registry.register Registry.originAt
  rw [step_advance h]
  unfold advance
  cases Origin.ofPath y.tree path with
  | error cause =>
    have hfailed := call_moveTo_self h (.failed cause)
    dsimp only
    rw [step_advance hfailed]
    exact ⟨rfl, rfl, congrArg (·.bind RegisterCall.answer?) hfailed⟩
  | ok o =>
    have hfound := call_moveTo_self h (.found o)
    have hreturned := call_moveTo_self hfound
      (.returned o (Registry.insert o tag y.registry y.tags).1)
    dsimp only
    rw [step_advance hfound]
    exact ⟨rfl, rfl, congrArg (·.bind RegisterCall.answer?) hreturned⟩

/-- A call with a tag has found an origin and told whether it was new. -/
def Returned (y : SharedRegistry) (i : Nat) (tag : Option OriginTag) (o : Origin) (new : Bool) :
    Prop := ∃ path, y.calls[i]? = some ⟨path, tag, .returned o new⟩

/-- After a move the calls that have returned are those from before, and the one that moved if it
has returned now. -/
theorem returned_moveTo_iff (h : y.calls[i]? = some c) (unanswered : c.answer? = none)
    {stage : RegisterStage} {tag : Option OriginTag} {o : Origin} {new : Bool} :
    (y.moveTo i c stage).Returned j tag o new ↔
      j = i ∧ tag = c.tag ∧ stage = .returned o new ∨ y.Returned j tag o new := by
  unfold Returned
  by_cases hij : j = i
  · subst hij
    rw [call_moveTo_self h, h]
    constructor
    · rintro ⟨path, hc⟩
      cases hc
      exact Or.inl ⟨rfl, rfl, rfl⟩
    · rintro (⟨-, rfl, rfl⟩ | ⟨path, hc⟩)
      · exact ⟨c.path, rfl⟩
      · cases hc
        cases unanswered
  · rw [call_moveTo_of_ne hij]
    simp [hij]

/-- The registry agrees with what the calls have returned, with its snapshots and with the tags. -/
structure Sound (y : SharedRegistry) : Prop where
  /-- The registry is consistent. -/
  consistent : y.registry.Consistent
  /-- Every snapshot is consistent and has the first origins of the registry. -/
  snapshot : ∀ r ∈ y.snapshots, r.Consistent ∧ r.order <+: y.registry.order
  /-- Every snapshot has the first origins of every later one. -/
  ordered : y.snapshots.Pairwise fun r r' => r.order <+: r'.order
  /-- The origins are those that a call has returned as new. -/
  listed : ∀ o, o ∈ y.registry.order ↔ ∃ i tag, y.Returned i tag o true
  /-- What a call has returned is registered. -/
  known : ∀ i tag o new, y.Returned i tag o new → y.registry.contains o.location = true
  /-- At most one call has returned a location as new. -/
  single : ∀ i j tag tag' o o', y.Returned i tag o true → y.Returned j tag' o' true →
    o.location.components = o'.location.components → i = j
  /-- A location that no other registry has tagged has the tag of the call that entered it. -/
  tagged : ∀ i tag o, y.Returned i tag o true → o.location.components ∉ y.foreign →
    y.tags.get? o.location = tag
  /-- It has none before that. -/
  untagged : ∀ p, y.registry.contains p = false → p.components ∉ y.foreign →
    y.tags.get? p = none

theorem sound_start (t : FileTree) : (start t).Sound where
  consistent := Registry.consistent_empty
  snapshot := nofun
  ordered := List.Pairwise.nil
  listed _ := ⟨nofun, fun ⟨_, _, _, h⟩ => nomatch h⟩
  known _ _ _ _ h := nomatch h.choose_spec
  single _ _ _ _ _ _ h := nomatch h.choose_spec
  tagged _ _ _ h := nomatch h.choose_spec
  untagged _ _ _ := rfl

/-- Views, notices and files do not matter, and of the calls only what they have returned. -/
theorem Sound.congr (h : y.Sound) (hr : y'.registry = y.registry) (ht : y'.tags = y.tags)
    (hs : y'.snapshots = y.snapshots) (hf : y'.foreign = y.foreign)
    (hc : ∀ i tag o new, y'.Returned i tag o new ↔ y.Returned i tag o new) : y'.Sound := by
  obtain ⟨consistent, snapshot, ordered, listed, known, single, tagged, untagged⟩ := h
  constructor
  all_goals simp only [hr, ht, hs, hf, hc]
  all_goals assumption

/-- A call that moves without returning a new origin changes nothing but itself. -/
theorem Sound.moveTo (h : y.Sound) (hi : y.calls[i]? = some c) (unanswered : c.answer? = none)
    {stage : RegisterStage} (hstage : ∀ o new, stage ≠ .returned o new) :
    (y.moveTo i c stage).Sound := by
  refine h.congr rfl rfl rfl rfl fun j tag o new => ?_
  rw [returned_moveTo_iff hi unanswered]
  simp [hstage]

/-- A call may find its location registered. -/
theorem Sound.repeats (h : y.Sound) (hi : y.calls[i]? = some c) {o : Origin}
    (found : c.stage = .found o) (known : y.registry.contains o.location = true) :
    (y.moveTo i c (.returned o false)).Sound := by
  have hreturned {j : Nat} {tag : Option OriginTag} {o' : Origin} {new : Bool} :
      (y.moveTo i c (.returned o false)).Returned j tag o' new ↔
        j = i ∧ tag = c.tag ∧ RegisterStage.returned o false = .returned o' new ∨
          y.Returned j tag o' new :=
    returned_moveTo_iff hi (RegisterCall.answer?_of_found found)
  have hnew {j : Nat} {tag : Option OriginTag} {o' : Origin} :
      (y.moveTo i c (.returned o false)).Returned j tag o' true ↔ y.Returned j tag o' true := by
    rw [hreturned]
    simp
  refine ⟨h.consistent, h.snapshot, h.ordered, ?listed, ?known, ?single, ?tagged, h.untagged⟩
  case listed =>
    simp only [hnew]
    exact h.listed
  case single =>
    simp only [hnew]
    exact h.single
  case tagged =>
    simp only [hnew]
    exact h.tagged
  case known =>
    intro j tag o' new hj
    rcases hreturned.1 hj with ⟨-, -, he⟩ | hj
    · cases he
      exact known
    · exact h.known j tag o' new hj

theorem get?_tags_enter (y : SharedRegistry) (o : Origin) (tag : Option OriginTag) (p : Path) :
    (y.enter o tag).tags.get? p =
      if p.components = o.location.components then tag.or (y.tags.get? p)
      else y.tags.get? p := by
  cases tag with
  | none => simp [enter]
  | some tag => simp [enter, TagStore.get?_put]

/-- A call may enter a new origin. -/
theorem Sound.enters (h : y.Sound) (hi : y.calls[i]? = some c) {o : Origin}
    (found : c.stage = .found o) (new : y.registry.contains o.location = false) :
    ((y.enter o c.tag).moveTo i c (.returned o true)).Sound := by
  have hreturned {j : Nat} {tag : Option OriginTag} {o' : Origin} {new : Bool} :
      ((y.enter o c.tag).moveTo i c (.returned o true)).Returned j tag o' new ↔
        j = i ∧ tag = c.tag ∧ RegisterStage.returned o true = .returned o' new ∨
          y.Returned j tag o' new :=
    returned_moveTo_iff (y := y.enter o c.tag) hi (RegisterCall.answer?_of_found found)
  -- the call is the first to return its location, for all others have found theirs registered
  have hother {j : Nat} {tag : Option OriginTag} {o' : Origin} {new' : Bool}
      (hj : y.Returned j tag o' new') : o'.location.components ≠ o.location.components := by
    intro he
    have hknown := h.known j tag o' new' hj
    rw [Registry.contains_congr _ he, new] at hknown
    cases hknown
  constructor
  case consistent => exact h.consistent.append new
  case snapshot =>
    intro r hr
    obtain ⟨hconsistent, hprefix⟩ := h.snapshot r hr
    exact ⟨hconsistent, hprefix.trans (List.prefix_append _ _)⟩
  case ordered => exact h.ordered
  case listed =>
    intro o'
    change o' ∈ y.registry.order ++ [o] ↔ _
    rw [List.mem_append, List.mem_singleton, h.listed]
    constructor
    · rintro (⟨j, tag, hj⟩ | rfl)
      · exact ⟨j, tag, hreturned.2 (Or.inr hj)⟩
      · exact ⟨i, c.tag, hreturned.2 (Or.inl ⟨rfl, rfl, rfl⟩)⟩
    · rintro ⟨j, tag, hj⟩
      rcases hreturned.1 hj with ⟨-, -, he⟩ | hj
      · cases he
        exact Or.inr rfl
      · exact Or.inl ⟨j, tag, hj⟩
  case known =>
    intro j tag o' new' hj
    refine Registry.contains_append_iff.2 ?_
    rcases hreturned.1 hj with ⟨-, -, he⟩ | hj
    · cases he
      exact Or.inl rfl
    · exact Or.inr (h.known j tag o' new' hj)
  case single =>
    intro j k tag tag' o₁ o₂ hj hk he
    rcases hreturned.1 hj with ⟨hji, -, ho₁⟩ | hj'
    · rcases hreturned.1 hk with ⟨hki, -, -⟩ | hk'
      · exact hji.trans hki.symm
      · cases ho₁
        exact absurd he.symm (hother hk')
    · rcases hreturned.1 hk with ⟨-, -, ho₂⟩ | hk'
      · cases ho₂
        exact absurd he (hother hj')
      · exact h.single j k tag tag' o₁ o₂ hj' hk' he
  case tagged =>
    intro j tag o' hj hforeign
    change (y.enter o c.tag).tags.get? o'.location = tag
    rw [get?_tags_enter]
    rcases hreturned.1 hj with ⟨-, rfl, he⟩ | hj
    · cases he
      rw [if_pos rfl, h.untagged _ new hforeign, Option.or_none]
    · rw [if_neg (hother hj)]
      exact h.tagged j tag o' hj hforeign
  case untagged =>
    intro p hp hforeign
    change (y.enter o c.tag).tags.get? p = none
    have hnot : ¬ (p.components = o.location.components ∨ y.registry.contains p = true) := by
      rw [← Registry.contains_append_iff]
      exact ne_true_of_eq_false hp
    rw [not_or, Bool.not_eq_true] at hnot
    rw [get?_tags_enter, if_neg hnot.1]
    exact h.untagged p hnot.2 hforeign

/-- Whatever a call does next, the registry stays in agreement. -/
theorem Sound.advance (h : y.Sound) (hi : y.calls[i]? = some c) :
    (y.step (.advance i)).Sound := by
  have hm := moves_advance hi
  generalize y.step (.advance i) = y' at hm
  cases hm with
  | finds arrived available =>
    exact h.moveTo hi (RegisterCall.answer?_of_arrived arrived) nofun
  | fails arrived unavailable =>
    exact h.moveTo hi (RegisterCall.answer?_of_arrived arrived) nofun
  | enters found new => exact h.enters hi found new
  | repeats found known => exact h.repeats hi found known
  | stays ended => exact h

theorem Sound.step (h : y.Sound) (a : RegistryAction) : (y.step a).Sound := by
  cases a with
  | call path tag =>
    refine h.congr rfl rfl rfl rfl fun i tag' o new => ?_
    simp only [Returned, SharedRegistry.step]
    refine exists_congr fun path' => ?_
    rw [List.getElem?_append]
    split
    · rfl
    · rename_i hi
      rw [List.getElem?_eq_none (Nat.le_of_not_lt hi)]
      cases i - y.calls.length <;> simp
  | advance i =>
    cases hi : y.calls[i]? with
    | none =>
      simp only [SharedRegistry.step, hi]
      exact h
    | some c => exact h.advance hi
  | snapshot =>
    have hregistry : y.registry.Consistent ∧ y.registry.order <+: y.registry.order :=
      ⟨h.consistent, List.prefix_rfl⟩
    refine ⟨h.consistent, ?_, ?_, h.listed, h.known, h.single, h.tagged, h.untagged⟩
    · intro r hr
      rcases List.mem_append.1 hr with hr | hr
      · exact h.snapshot r hr
      · rw [List.mem_singleton.1 hr]
        exact hregistry
    · refine List.pairwise_append.2 ⟨h.ordered, List.pairwise_singleton _ _, ?_⟩
      intro r hr r' hr'
      rw [List.mem_singleton.1 hr']
      exact (h.snapshot r hr).2
  | search k how resource =>
    simp only [SharedRegistry.step]
    split
    · exact h.congr rfl rfl rfl rfl fun _ _ _ _ => Iff.rfl
    · exact h
  | tagElsewhere location tag =>
    have htag {p : Path} (hp : p.components ∉ location.components :: y.foreign) :
        p.components ∉ y.foreign ∧ (y.tags.put location tag).get? p = y.tags.get? p := by
      rw [List.mem_cons, not_or] at hp
      exact ⟨hp.2, (TagStore.get?_put ..).trans (if_neg hp.1)⟩
    refine ⟨h.consistent, h.snapshot, h.ordered, h.listed, h.known, h.single, ?_, ?_⟩
    · intro i tag' o hi hforeign
      obtain ⟨hold, hsame⟩ := htag hforeign
      exact hsame.trans (h.tagged i tag' o hi hold)
    · intro p hp hforeign
      obtain ⟨hold, hsame⟩ := htag hforeign
      exact hsame.trans (h.untagged p hp hold)
  | files t => exact h.congr rfl rfl rfl rfl fun _ _ _ _ => Iff.rfl

/-- What holds at first and is kept by everything that happens holds after every run. -/
theorem run_induction {P : SharedRegistry → Prop} (h : P y) (hstep : ∀ y a, P y → P (y.step a))
    (as : List RegistryAction) : P (y.run as) :=
  List.foldlRecOn as step h fun y hy a _ => hstep y a hy

/-- After every run the registry is in agreement with its calls. -/
theorem sound_run (t : FileTree) (as : List RegistryAction) : ((start t).run as).Sound :=
  run_induction (sound_start t) (fun _ a h => h.step a) as

/-- The origins so far come first, and the calls that are over stay as they are. -/
structure Extends (y y' : SharedRegistry) : Prop where
  /-- The order of the origins only grows at its end. -/
  order_prefix : y.registry.order <+: y'.registry.order
  /-- An answer is final. -/
  answered : ∀ (i : Nat) (c : RegisterCall), y.calls[i]? = some c → c.answer?.isSome = true →
    y'.calls[i]? = some c

theorem Extends.refl (y : SharedRegistry) : y.Extends y :=
  ⟨List.prefix_rfl, fun _ _ h _ => h⟩

theorem Extends.trans {y'' : SharedRegistry} (h : y.Extends y') (h' : y'.Extends y'') :
    y.Extends y'' :=
  ⟨h.order_prefix.trans h'.order_prefix,
    fun i c hi ended => h'.answered i c (h.answered i c hi ended) ended⟩

theorem extends_step (y : SharedRegistry) (a : RegistryAction) : y.Extends (y.step a) := by
  cases a with
  | call path tag =>
    refine ⟨List.prefix_rfl, fun i c hi _ => ?_⟩
    exact getElem?_append_of_some hi _
  | advance j =>
    cases hj : y.calls[j]? with
    | none =>
      simp only [step, hj]
      exact .refl y
    | some c =>
      have hother (unanswered : c.answer? = none) (stage : RegisterStage) (i : Nat)
          (c' : RegisterCall) (hi : y.calls[i]? = some c') (ended : c'.answer?.isSome = true) :
          (y.moveTo j c stage).calls[i]? = some c' := by
        have hne : i ≠ j := by
          rintro rfl
          rw [hj] at hi
          obtain rfl := Option.some.inj hi
          rw [unanswered] at ended
          cases ended
        exact (call_moveTo_of_ne hne stage).trans hi
      have hm := moves_advance hj
      generalize y.step (.advance j) = y' at hm
      cases hm with
      | finds arrived available =>
        exact ⟨List.prefix_rfl, hother (RegisterCall.answer?_of_arrived arrived) _⟩
      | fails arrived unavailable =>
        exact ⟨List.prefix_rfl, hother (RegisterCall.answer?_of_arrived arrived) _⟩
      | enters found new =>
        exact ⟨List.prefix_append _ _, hother (RegisterCall.answer?_of_found found) _⟩
      | repeats found known =>
        exact ⟨List.prefix_rfl, hother (RegisterCall.answer?_of_found found) _⟩
      | stays ended => exact .refl y
  | search k how resource =>
    simp only [step]
    split <;> exact ⟨List.prefix_rfl, fun _ _ h _ => h⟩
  | snapshot | tagElsewhere location tag | files t =>
    exact ⟨List.prefix_rfl, fun _ _ h _ => h⟩

theorem extends_run (y : SharedRegistry) (as : List RegistryAction) : y.Extends (y.run as) :=
  run_induction (P := y.Extends) (.refl y) (fun y' a h => h.trans (extends_step y' a)) as

/-- A registry in agreement with its calls registers every location once. -/
structure RegistersOnce (y : SharedRegistry) : Prop extends y.Sound where
  /-- No two origins have the same location. -/
  distinct : (y.registry.order.map (·.location.components)).Nodup
  /-- The members are the locations of the origins. -/
  mem_members_iff : ∀ key, key ∈ y.registry.members ↔
    ∃ o ∈ y.registry.order, o.location.components = key
  /-- There are as many origins as members, each of which is listed once. -/
  size_eq : y.registry.members.Nodup ∧ y.registry.size = y.registry.members.length
  /-- Of the calls that have returned a location, exactly one has returned that it was new. -/
  once : ∀ i tag o new, y.Returned i tag o new →
    ∃! j, ∃ tag' o', y.Returned j tag' o' true ∧ o'.location.components = o.location.components

theorem Sound.registersOnce (h : y.Sound) : y.RegistersOnce := by
  have hmembers := h.consistent.members_eq
  refine ⟨h, h.consistent.distinct, fun key => ?_, ⟨?_, ?_⟩, ?_⟩
  · rw [hmembers, List.mem_reverse, List.mem_map]
  · rw [hmembers]
    exact List.nodup_reverse.2 h.consistent.distinct
  · rw [hmembers, List.length_reverse, List.length_map, Registry.size]
  · intro i tag o new hi
    obtain ⟨o', ho', he⟩ := (h.consistent.contains_iff _).1 (h.known i tag o new hi)
    obtain ⟨j, tag', hj⟩ := (h.listed o').1 ho'
    refine ⟨j, ⟨tag', o', hj, he⟩, ?_⟩
    rintro k ⟨tag'', o'', hk, he'⟩
    exact h.single k j tag'' tag' o'' o' hk hj (he'.trans he.symm)

/-- However the steps of any number of calls mix with each other, with snapshots, searches, foreign
tags and changes of the files, the registry registers every location once. A call that fails or
comes second changes nothing but itself, and whatever happens later extends what is there. -/
theorem registersOnce_run (t : FileTree) (as : List RegistryAction) :
    let y := (start t).run as
    y.RegistersOnce ∧
      (∀ i c, y.calls[i]? = some c → y.Moves i c (y.step (.advance i))) ∧
      ∀ later, y.Extends (y.run later) := by
  intro y
  have hsound : y.Sound := run_induction (sound_start t) (fun _ a h => h.step a) as
  exact ⟨hsound.registersOnce, fun _ _ hi => moves_advance hi, extends_run y⟩

end SharedRegistry

end Overlay
