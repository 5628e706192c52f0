import Mathlib.Data.List.Nodup
import Mathlib.Logic.Function.Basic
import Overlay.Proofs.Slots
import Overlay.Proofs.Views

/-!
# Opening archives at the same time

Many calls may open archives, or acquire views of them for one look-up, at once. An opening call
looks for a live view, indexes the file if there is none, and enters its view unless one is live by
then; an acquiring call only looks and indexes. Between these steps other calls move on and files
change, so that two calls may index different contents of one archive. Views are told apart by the
call that has indexed the file: two views of the same contents are still two views. `open_alone` and
`acquire_alone` tie the steps to the calls that nothing interrupts.
-/

namespace Overlay

/-- A view and the call that has indexed the file for it. -/
structure MadeView where
  /-- What the view shows. -/
  index : ArchiveIndex
  /-- The call. -/
  maker : Nat

/-- Where a call that opens an archive stands. -/
inductive OpenStage where
  /-- It looks for a live view. -/
  | arrived
  /-- There was none, and it indexes the file. -/
  | missed
  /-- It has indexed the file and waits to enter its view. -/
  | indexed (index : ArchiveIndex)
  /-- The file could not be indexed. -/
  | failed (cause : IoError)
  /-- It has returned a view. -/
  | opened (view : MadeView)

/-- Where a call that acquires a view stands. -/
inductive AcquireStage where
  /-- It looks for a live view. -/
  | arrived
  /-- There was none, and it indexes the file. -/
  | missed
  /-- The file could not be indexed. -/
  | failed (cause : IoError)
  /-- It has returned a handle, which may have been dropped since. -/
  | acquired (view : MadeView) (owned dropped : Bool)

/-- A call to the archive table. -/
inductive ViewCall where
  /-- To open an archive. -/
  | opening (path : Path) (stage : OpenStage)
  /-- To acquire a view of one. -/
  | acquiring (path : Path) (stage : AcquireStage)

namespace ViewCall

/-- The path of the archive. -/
def path : ViewCall → Path
  | opening p _ | acquiring p _ => p

/-- The call as it was when it arrived. -/
def arrival : ViewCall → ViewCall
  | opening p _ => opening p .arrived
  | acquiring p _ => acquiring p .arrived

/-- Whether a call takes no more steps. -/
def ended : ViewCall → Bool
  | opening _ (.failed _) | opening _ (.opened _) => true
  | acquiring _ (.failed _) | acquiring _ (.acquired _ _ true) => true
  | _ => false

/-- Whether a call is one that enters no view: it acquires, or it has failed to open. -/
def abstains : ViewCall → Bool
  | opening _ (.failed _) | acquiring _ _ => true
  | _ => false

/-- What a call to open has returned. -/
def opened? : ViewCall → Option (Except IoError ArchiveIndex)
  | opening _ (.failed cause) => some (.error cause)
  | opening _ (.opened v) => some (.ok v.index)
  | _ => none

/-- What a call to acquire has returned. -/
def acquired? : ViewCall → Option (Except IoError AcquiredView)
  | acquiring _ (.failed cause) => some (.error cause)
  | acquiring _ (.acquired v owned _) => some (.ok ⟨v.index, owned⟩)
  | _ => none

/-- Where a call can stand after a look-up with the given result. -/
def After (found : Option MadeView) : ViewCall → Prop
  | opening _ .arrived | acquiring _ .arrived => False
  | opening _ (.opened v) => found = none ∨ found = some v
  | acquiring _ (.acquired v owned _) => found = if owned then none else some v
  | _ => found = none

end ViewCall

/-- The archive table, the files and all calls that there ever were. -/
structure SharedViews where
  /-- The files. -/
  tree : FileTree
  /-- The live views. -/
  table : ArchiveTable
  /-- The calls that have made the live views. -/
  makers : PathKey → Nat
  /-- The calls, in order of arrival. -/
  calls : List ViewCall

/-- What happens next to the archive table. -/
inductive ViewAction where
  /-- A call to open an archive arrives. -/
  | opens (path : Path)
  /-- A call to acquire a view arrives. -/
  | acquires (path : Path)
  /-- A call takes its next step; if it holds a handle, it drops it. -/
  | advance (i : Nat)
  /-- The files change. -/
  | files (t : FileTree)

namespace SharedViews

/-- An empty table without calls. -/
def start (t : FileTree) : SharedViews := ⟨t, ArchiveTable.empty, fun _ => 0, []⟩

/-- The live view of an archive. -/
def live (y : SharedViews) (p : Path) : Option MadeView :=
  (y.table.get? p).map fun index => ⟨index, y.makers p.components⟩

/-- Put a call where it stands next. -/
def put (y : SharedViews) (i : Nat) (c : ViewCall) : SharedViews :=
  { y with calls := y.calls.set i c }

/-- Enter the view of a call unless one is live. -/
def enter (y : SharedViews) (i : Nat) (p : Path) (index : ArchiveIndex) : SharedViews :=
  { y with
    table := y.table.insertIfAbsent p index
    makers := if (y.table.get? p).isSome then y.makers
      else Function.update y.makers p.components i }

/-- Let a call to open an archive take its next step. -/
def advanceOpening (y : SharedViews) (i : Nat) (p : Path) : OpenStage → SharedViews
  | .arrived =>
    match y.live p with
    | some v => y.put i (.opening p (.opened v))
    | none => y.put i (.opening p .missed)
  | .missed =>
    match ArchiveIndex.ofPath y.tree p with
    | .ok index => y.put i (.opening p (.indexed index))
    | .error cause => y.put i (.opening p (.failed cause))
  | .indexed index =>
    let entered := y.enter i p index
    entered.put i (.opening p (.opened ((entered.live p).getD ⟨index, i⟩)))
  | _ => y

/-- Let a call to acquire a view take its next step. -/
def advanceAcquiring (y : SharedViews) (i : Nat) (p : Path) : AcquireStage → SharedViews
  | .arrived =>
    match y.live p with
    | some v => y.put i (.acquiring p (.acquired v false false))
    | none => y.put i (.acquiring p .missed)
  | .missed =>
    match ArchiveIndex.ofPath y.tree p with
    | .ok index => y.put i (.acquiring p (.acquired ⟨index, i⟩ true false))
    | .error cause => y.put i (.acquiring p (.failed cause))
  | .acquired v owned false => y.put i (.acquiring p (.acquired v owned true))
  | _ => y

/-- Let a call take its next step. -/
def advance (y : SharedViews) (i : Nat) : ViewCall → SharedViews
  | .opening p stage => y.advanceOpening i p stage
  | .acquiring p stage => y.advanceAcquiring i p stage

/-- Let a call arrive. -/
def arrive (y : SharedViews) (c : ViewCall) : SharedViews := { y with calls := y.calls ++ [c] }

/-- Let one thing happen. -/
def step (y : SharedViews) : ViewAction → SharedViews
  | .opens p => y.arrive (.opening p .arrived)
  | .acquires p => y.arrive (.acquiring p .arrived)
  | .advance i =>
    match y.calls[i]? with
    | some c => y.advance i c
    | none => y
  | .files t => { y with tree := t }

/-- Let things happen in turn. -/
def run (y : SharedViews) (as : List ViewAction) : SharedViews := as.foldl step y

theorem run_append (y : SharedViews) (as as' : List ViewAction) :
    y.run (as ++ as') = (y.run as).run as' := List.foldl_append ..

theorem run_snoc (y : SharedViews) (as : List ViewAction) (a : ViewAction) :
    y.run (as ++ [a]) = (y.run as).step a := run_append y as [a]

/-- What holds at first and is kept by everything that happens holds after every run. The property
may speak of what has happened so far. -/
theorem run_induction {y : SharedViews} {P : List ViewAction → SharedViews → Prop} (h : P [] y)
    (hstep : ∀ as a, P as (y.run as) → P (as ++ [a]) (y.run (as ++ [a])))
    (as : List ViewAction) : P as (y.run as) := by
  induction as using List.reverseRecOn with
  | nil => exact h
  | append_singleton as a ih => exact hstep as a ih

variable {y y' : SharedViews} {i j : Nat} {c c' d : ViewCall} {p q : Path} {v : MadeView}

theorem live_eq_none_iff : y.live p = none ↔ y.table.get? p = none := Option.map_eq_none_iff

theorem get?_of_live (h : y.live p = some v) : y.table.get? p = some v.index := by
  obtain ⟨index, hindex, rfl⟩ := Option.map_eq_some_iff.1 h
  exact hindex

/-- Paths with the same components have the same live view. -/
theorem live_congr (h : q.components = p.components) : y.live q = y.live p := by
  rw [live, live, ArchiveTable.get?, ArchiveTable.get?, h]

/-- A view that is entered is live if none was, and no other archive gets another view. -/
theorem live_enter (y : SharedViews) (i : Nat) (p q : Path) (index : ArchiveIndex) :
    (y.enter i p index).live q =
      if q.components = p.components then some ((y.live p).getD ⟨index, i⟩) else y.live q := by
  unfold live enter
  rw [ArchiveTable.get?_insertIfAbsent]
  by_cases hq : q.components = p.components
  · rw [if_pos hq, if_pos hq, hq]
    cases y.table.get? p <;> simp
  · rw [if_neg hq, if_neg hq]
    cases y.table.get? p <;> simp [hq]

/-- Nothing is entered where a view is live. -/
theorem enter_of_live (h : y.live p = some v) (i : Nat) (index : ArchiveIndex) :
    y.enter i p index = y := by
  have hget : y.table.views.get? p.components = some v.index := get?_of_live h
  have hkept : y.table.insertIfAbsent p index = y.table := by
    rw [ArchiveTable.insertIfAbsent, Table.insertIfAbsent, Table.contains, hget]
    rfl
  rw [enter, hkept, ArchiveTable.get?, hget]
  rfl

theorem call_put_self (h : y.calls[i]? = some c) (c' : ViewCall) :
    (y.put i c').calls[i]? = some c' := List.getElem?_set_self (List.getElem?_eq_some_iff.1 h).1

theorem call_put_of_ne (h : j ≠ i) (c' : ViewCall) : (y.put i c').calls[j]? = y.calls[j]? :=
  List.getElem?_set_ne h.symm

/-- After a call is put somewhere, it stands there and the others stand where they stood. -/
theorem call_put (h : (y.put i c').calls[j]? = some d) :
    j = i ∧ d = c' ∨ j ≠ i ∧ y.calls[j]? = some d := of_getElem?_set h

theorem call_arrive_of_some (h : y.calls[i]? = some d) (c : ViewCall) :
    (y.arrive c).calls[i]? = some d := getElem?_append_of_some h [c]

/-- After a call has arrived, the others stand where they stood. -/
theorem call_arrive (h : (y.arrive c).calls[i]? = some d) :
    y.calls[i]? = some d ∨ y.calls[i]? = none ∧ d = c := by
  rcases of_getElem?_concat h with hd | ⟨rfl, hd⟩
  · exact Or.inl hd
  · exact Or.inr ⟨List.getElem?_eq_none Nat.le.refl, hd⟩

theorem step_advance (h : y.calls[i]? = some c) : y.step (.advance i) = y.advance i c := by
  simp only [step, h]

/-- A step that a call can take without touching the table. -/
inductive Turns (y : SharedViews) (i : Nat) : ViewCall → ViewCall → Prop
  /-- An opening call returns the view that is live at its look-up. -/
  | reuses {p : Path} {v : MadeView} (present : y.live p = some v) :
      Turns y i (.opening p .arrived) (.opening p (.opened v))
  /-- It finds no live view. -/
  | misses {p : Path} (absent : y.live p = none) :
      Turns y i (.opening p .arrived) (.opening p .missed)
  /-- It indexes the file. -/
  | indexes {p : Path} {index : ArchiveIndex}
      (readable : ArchiveIndex.ofPath y.tree p = .ok index) :
      Turns y i (.opening p .missed) (.opening p (.indexed index))
  /-- It cannot index the file. -/
  | fails {p : Path} {cause : IoError}
      (unreadable : ArchiveIndex.ofPath y.tree p = .error cause) :
      Turns y i (.opening p .missed) (.opening p (.failed cause))
  /-- It returns the view that another call has entered before it. -/
  | joins {p : Path} {v : MadeView} {index : ArchiveIndex} (present : y.live p = some v) :
      Turns y i (.opening p (.indexed index)) (.opening p (.opened v))
  /-- An acquiring call borrows the view that is live at its look-up. -/
  | borrows {p : Path} {v : MadeView} (present : y.live p = some v) :
      Turns y i (.acquiring p .arrived) (.acquiring p (.acquired v false false))
  /-- It finds no live view. -/
  | passes {p : Path} (absent : y.live p = none) :
      Turns y i (.acquiring p .arrived) (.acquiring p .missed)
  /-- It makes a view of its own. -/
  | owns {p : Path} {index : ArchiveIndex}
      (readable : ArchiveIndex.ofPath y.tree p = .ok index) :
      Turns y i (.acquiring p .missed) (.acquiring p (.acquired ⟨index, i⟩ true false))
  /-- It cannot index the file. -/
  | resigns {p : Path} {cause : IoError}
      (unreadable : ArchiveIndex.ofPath y.tree p = .error cause) :
      Turns y i (.acquiring p .missed) (.acquiring p (.failed cause))
  /-- It drops its handle. -/
  | drops {p : Path} {v : MadeView} {owned : Bool} :
      Turns y i (.acquiring p (.acquired v owned false)) (.acquiring p (.acquired v owned true))

/-- What the next step of a call can do. -/
inductive Moves (y : SharedViews) (i : Nat) : ViewCall → SharedViews → Prop
  /-- The call moves on and leaves everything else as it is. -/
  | turns {c c' : ViewCall} (turn : y.Turns i c c') : Moves y i c (y.put i c')
  /-- It enters its view, for no view is live. -/
  | enters {p : Path} {index : ArchiveIndex} (absent : y.live p = none) :
      Moves y i (.opening p (.indexed index))
        ((y.enter i p index).put i (.opening p (.opened ⟨index, i⟩)))
  /-- It is over. -/
  | stays {c : ViewCall} (ended : c.ended = true) : Moves y i c y

theorem moves_opening (y : SharedViews) (i : Nat) (p : Path) (stage : OpenStage) :
    y.Moves i (.opening p stage) (y.advanceOpening i p stage) := by
  unfold advanceOpening
  cases stage with
  | arrived =>
    dsimp only
    split
    · exact .turns (.reuses ‹_›)
    · exact .turns (.misses ‹_›)
  | missed =>
    dsimp only
    split
    · exact .turns (.indexes ‹_›)
    · exact .turns (.fails ‹_›)
  | indexed index =>
    dsimp only
    cases hlive : y.live p with
    | none =>
      rw [live_enter, if_pos rfl, hlive]
      exact .enters hlive
    | some v =>
      rw [enter_of_live hlive, hlive]
      exact .turns (.joins hlive)
  | failed cause => exact .stays rfl
  | opened v => exact .stays rfl

theorem moves_acquiring (y : SharedViews) (i : Nat) (p : Path) (stage : AcquireStage) :
    y.Moves i (.acquiring p stage) (y.advanceAcquiring i p stage) := by
  unfold advanceAcquiring
  cases stage with
  | arrived =>
    dsimp only
    split
    · exact .turns (.borrows ‹_›)
    · exact .turns (.passes ‹_›)
  | missed =>
    dsimp only
    split
    · exact .turns (.owns ‹_›)
    · exact .turns (.resigns ‹_›)
  | failed cause => exact .stays rfl
  | acquired v owned dropped =>
    cases dropped with
    | false => exact .turns .drops
    | true => exact .stays rfl

/-- The next step of a call does one of these. -/
theorem moves_advance (h : y.calls[i]? = some c) : y.Moves i c (y.step (.advance i)) := by
  rw [step_advance h]
  cases c with
  | opening p stage => exact y.moves_opening i p stage
  | acquiring p stage => exact y.moves_acquiring i p stage

/-- A call that can turn does. -/
theorem step_of_turn (h : y.calls[i]? = some c) (turn : y.Turns i c c') :
    y.step (.advance i) = y.put i c' := by
  rw [step_advance h]
  cases turn with
  | reuses present | borrows present =>
    simp only [advance, advanceOpening, advanceAcquiring, present]
  | misses absent | passes absent => simp only [advance, advanceOpening, advanceAcquiring, absent]
  | indexes readable | owns readable =>
    simp only [advance, advanceOpening, advanceAcquiring, readable]
  | fails unreadable | resigns unreadable =>
    simp only [advance, advanceOpening, advanceAcquiring, unreadable]
  | joins present =>
    simp only [advance, advanceOpening, enter_of_live present, present, Option.getD_some]
  | drops => rfl

/-- A call that is over stays where it is. -/
theorem step_of_ended (h : y.calls[i]? = some c) (ended : c.ended = true) :
    y.step (.advance i) = y := by
  have hm := moves_advance h
  generalize y.step (.advance i) = y' at hm
  cases hm with
  | turns turn => cases turn <;> cases ended
  | enters absent => cases ended
  | stays => rfl

/-- An opening call that nothing interrupts ends with the table and the answer of the whole
opening. -/
theorem open_alone (h : y.calls[i]? = some (.opening p .arrived)) :
    let z := ((y.step (.advance i)).step (.advance i)).step (.advance i)
    let result := y.table.openView y.tree p
    z.table = result.2 ∧ z.calls[i]?.bind ViewCall.opened? = some result.1 := by
  unfold ArchiveTable.openView
  cases hget : y.table.get? p with
  | some index =>
    have hlive : y.live p = some ⟨index, y.makers p.components⟩ := by
      rw [live, hget, Option.map_some]
    have hopened := call_put_self h (.opening p (.opened ⟨index, y.makers p.components⟩))
    rw [step_of_turn h (.reuses hlive), step_of_ended hopened rfl, step_of_ended hopened rfl]
    exact ⟨rfl, congrArg (·.bind ViewCall.opened?) hopened⟩
  | none =>
    have hmissed := call_put_self h (.opening p .missed)
    rw [step_of_turn h (.misses (live_eq_none_iff.2 hget))]
    cases hindex : ArchiveIndex.ofPath y.tree p with
    | error cause =>
      have hfailed := call_put_self hmissed (.opening p (.failed cause))
      rw [step_of_turn hmissed (.fails hindex), step_of_ended hfailed rfl]
      exact ⟨rfl, congrArg (·.bind ViewCall.opened?) hfailed⟩
    | ok index =>
      have hindexed := call_put_self hmissed (.opening p (.indexed index))
      rw [step_of_turn hmissed (.indexes hindex), step_advance hindexed]
      refine ⟨rfl, (congrArg (·.bind ViewCall.opened?) (call_put_self hindexed _)).trans ?_⟩
      have hnew : (y.table.insertIfAbsent p index).get? p = some index := by
        rw [ArchiveTable.get?_insertIfAbsent, if_pos rfl, hget, Option.getD_none]
      have hlive : (y.enter i p index).live p = some ⟨index, i⟩ := by
        rw [live_enter, if_pos rfl, live_eq_none_iff.2 hget, Option.getD_none]
      change some (Except.ok (((y.enter i p index).live p).getD ⟨index, i⟩).index) =
        some (Except.ok (((y.table.insertIfAbsent p index).get? p).getD index))
      rw [hlive, hnew, Option.getD_some, Option.getD_some]

/-- An acquiring call that nothing interrupts leaves the table and ends with the answer of the whole
acquiring. -/
theorem acquire_alone (h : y.calls[i]? = some (.acquiring p .arrived)) :
    let z := (y.step (.advance i)).step (.advance i)
    z.table = y.table ∧
      z.calls[i]?.bind ViewCall.acquired? = some (y.table.acquire y.tree p) := by
  unfold ArchiveTable.acquire
  cases hget : y.table.get? p with
  | some index =>
    have hlive : y.live p = some ⟨index, y.makers p.components⟩ := by
      rw [live, hget, Option.map_some]
    have hacquired := call_put_self h
      (.acquiring p (.acquired ⟨index, y.makers p.components⟩ false false))
    rw [step_of_turn h (.borrows hlive), step_of_turn hacquired .drops]
    exact ⟨rfl, congrArg (·.bind ViewCall.acquired?) (call_put_self hacquired _)⟩
  | none =>
    have hmissed := call_put_self h (.acquiring p .missed)
    rw [step_of_turn h (.passes (live_eq_none_iff.2 hget))]
    cases hindex : ArchiveIndex.ofPath y.tree p with
    | error cause =>
      rw [step_of_turn hmissed (.resigns hindex)]
      exact ⟨rfl, congrArg (·.bind ViewCall.acquired?) (call_put_self hmissed _)⟩
    | ok index =>
      rw [step_of_turn hmissed (.owns hindex)]
      exact ⟨rfl, congrArg (·.bind ViewCall.acquired?) (call_put_self hmissed _)⟩

/-- The table has one view for every archive, and the calls that have returned a live view have
returned the one in the table. -/
structure Safe (y : SharedViews) : Prop where
  /-- No two live views have paths of the same components. -/
  distinct : y.table.views.keys.Nodup
  /-- A live view has been made and returned by a call that opens its archive. -/
  made : ∀ p v, y.live p = some v → ∃ q, y.calls[v.maker]? = some (.opening q (.opened v)) ∧
    q.components = p.components
  /-- An opening call has returned the live view. -/
  opened : ∀ (i : Nat) p v, y.calls[i]? = some (.opening p (.opened v)) → y.live p = some v
  /-- A handle that owns no view has the live one. -/
  borrowed : ∀ (i : Nat) p v dropped,
    y.calls[i]? = some (.acquiring p (.acquired v false dropped)) → y.live p = some v
  /-- A handle that owns its view has one that its own call has made. -/
  owned : ∀ (i : Nat) p v dropped,
    y.calls[i]? = some (.acquiring p (.acquired v true dropped)) → v.maker = i

/-- A view that a handle owns is never live. -/
theorem Safe.live_ne_of_owned (h : y.Safe) {dropped : Bool}
    (hi : y.calls[i]? = some (.acquiring p (.acquired v true dropped))) (q : Path) :
    y.live q ≠ some v := by
  intro hlive
  obtain ⟨q', hq', -⟩ := h.made q v hlive
  rw [h.owned i p v dropped hi, hi] at hq'
  cases hq'

theorem safe_start (t : FileTree) : (start t).Safe where
  distinct := List.nodup_nil
  made _ _ h := nomatch h
  opened _ _ _ h := nomatch h
  borrowed _ _ _ _ h := nomatch h
  owned _ _ _ _ h := nomatch h

/-- A call may turn. -/
theorem Safe.turns (h : y.Safe) (hi : y.calls[i]? = some c) (turn : y.Turns i c c') :
    (y.put i c').Safe := by
  constructor
  case distinct => exact h.distinct
  case made =>
    intro q v hlive
    obtain ⟨q', hq', hc⟩ := h.made q v hlive
    have hne : v.maker ≠ i := by
      rintro rfl
      rw [hi] at hq'
      cases hq'
      cases turn
    exact ⟨q', (call_put_of_ne hne c').trans hq', hc⟩
  case opened =>
    intro j q v hj
    rcases call_put hj with ⟨-, rfl⟩ | ⟨-, hj⟩
    · cases turn with
      | reuses present | joins present => exact present
    · exact h.opened j q v hj
  case borrowed =>
    intro j q v dropped hj
    rcases call_put hj with ⟨-, rfl⟩ | ⟨-, hj⟩
    · cases turn with
      | borrows present => exact present
      | drops => exact h.borrowed i q v false hi
    · exact h.borrowed j q v dropped hj
  case owned =>
    intro j q v dropped hj
    rcases call_put hj with ⟨rfl, rfl⟩ | ⟨-, hj⟩
    · cases turn with
      | owns readable => rfl
      | drops => exact h.owned j q v false hi
    · exact h.owned j q v dropped hj

/-- A view that is live stays live when another is entered. -/
theorem live_enter_of_live (h : y.live q = some v) (absent : y.live p = none) (i : Nat)
    (index : ArchiveIndex) : (y.enter i p index).live q = some v := by
  have hne : q.components ≠ p.components := by
    intro he
    rw [live_congr he, absent] at h
    cases h
  rw [live_enter, if_neg hne, h]

/-- A call may enter its view. -/
theorem Safe.enters (h : y.Safe) {index : ArchiveIndex}
    (hi : y.calls[i]? = some (.opening p (.indexed index))) (absent : y.live p = none) :
    ((y.enter i p index).put i (.opening p (.opened ⟨index, i⟩))).Safe := by
  have hnew : (y.enter i p index).live p = some ⟨index, i⟩ := by
    rw [live_enter, if_pos rfl, absent, Option.getD_none]
  have hi' : (y.enter i p index).calls[i]? = some (.opening p (.indexed index)) := hi
  constructor
  case distinct => exact Table.nodup_keys_insertIfAbsent h.distinct p.components index
  case made =>
    intro q v hlive
    change (y.enter i p index).live q = some v at hlive
    rw [live_enter, absent, Option.getD_none] at hlive
    split at hlive
    · rename_i hq
      obtain rfl := Option.some.inj hlive
      exact ⟨p, call_put_self hi' _, hq.symm⟩
    · obtain ⟨q', hq', hc⟩ := h.made q v hlive
      have hne : v.maker ≠ i := by
        rintro rfl
        rw [hi] at hq'
        cases hq'
      exact ⟨q', (call_put_of_ne hne _).trans hq', hc⟩
  case opened =>
    intro j q v hj
    rcases call_put hj with ⟨-, he⟩ | ⟨-, hj⟩
    · cases he
      exact hnew
    · exact live_enter_of_live (h.opened j q v hj) absent i index
  case borrowed =>
    intro j q v dropped hj
    rcases call_put hj with ⟨-, he⟩ | ⟨-, hj⟩
    · cases he
    · exact live_enter_of_live (h.borrowed j q v dropped hj) absent i index
  case owned =>
    intro j q v dropped hj
    rcases call_put hj with ⟨-, he⟩ | ⟨-, hj⟩
    · cases he
    · exact h.owned j q v dropped hj

/-- A call may arrive. -/
theorem Safe.arrive (h : y.Safe) (fresh : c.arrival = c) : (y.arrive c).Safe := by
  constructor
  case distinct => exact h.distinct
  case made =>
    intro q v hlive
    obtain ⟨q', hq', hc⟩ := h.made q v hlive
    exact ⟨q', call_arrive_of_some hq' c, hc⟩
  case opened =>
    intro j q v hj
    rcases call_arrive hj with hj | ⟨-, rfl⟩
    · exact h.opened j q v hj
    · cases fresh
  case borrowed =>
    intro j q v dropped hj
    rcases call_arrive hj with hj | ⟨-, rfl⟩
    · exact h.borrowed j q v dropped hj
    · cases fresh
  case owned =>
    intro j q v dropped hj
    rcases call_arrive hj with hj | ⟨-, rfl⟩
    · exact h.owned j q v dropped hj
    · cases fresh

theorem Safe.step (h : y.Safe) (a : ViewAction) : (y.step a).Safe := by
  cases a with
  | opens p => exact h.arrive rfl
  | acquires p => exact h.arrive rfl
  | advance i =>
    cases hi : y.calls[i]? with
    | none =>
      simp only [SharedViews.step, hi]
      exact h
    | some c =>
      have hm := moves_advance hi
      generalize y.step (.advance i) = y' at hm
      cases hm with
      | turns turn => exact h.turns hi turn
      | enters absent => exact h.enters hi absent
      | stays ended => exact h
  | files t => exact ⟨h.distinct, h.made, h.opened, h.borrowed, h.owned⟩

theorem safe_run (t : FileTree) (as : List ViewAction) : ((start t).run as).Safe :=
  run_induction (P := fun _ y => y.Safe) (safe_start t)
    (fun as a h => run_snoc (start t) as a ▸ h.step a) as

/-- Live views stay, and so does what calls have returned. -/
structure Extends (y y' : SharedViews) : Prop where
  /-- A live view is never replaced or removed. -/
  live_kept : ∀ p v, y.live p = some v → y'.live p = some v
  /-- A call that is over stays as it is. -/
  answered : ∀ (i : Nat) c, y.calls[i]? = some c → c.ended = true → y'.calls[i]? = some c
  /-- A handle keeps its view until it is dropped. -/
  held : ∀ (i : Nat) p v owned dropped,
    y.calls[i]? = some (.acquiring p (.acquired v owned dropped)) →
      ∃ dropped', y'.calls[i]? = some (.acquiring p (.acquired v owned dropped'))

theorem Extends.refl (y : SharedViews) : y.Extends y :=
  ⟨fun _ _ h => h, fun _ _ h _ => h, fun _ _ _ _ dropped h => ⟨dropped, h⟩⟩

theorem Extends.trans {y'' : SharedViews} (h : y.Extends y') (h' : y'.Extends y'') :
    y.Extends y'' where
  live_kept p v hv := h'.live_kept p v (h.live_kept p v hv)
  answered i c hi ended := h'.answered i c (h.answered i c hi ended) ended
  held i p v owned dropped hi := by
    obtain ⟨dropped', hi'⟩ := h.held i p v owned dropped hi
    exact h'.held i p v owned dropped' hi'

theorem extends_arrive (y : SharedViews) (c : ViewCall) : y.Extends (y.arrive c) where
  live_kept _ _ h := h
  answered _ _ h _ := call_arrive_of_some h c
  held _ _ _ _ dropped h := ⟨dropped, call_arrive_of_some h c⟩

/-- A call that moves on extends what is there, if it is not over and drops no view but its own
handle. -/
theorem extends_put (hi : y.calls[i]? = some c) (unended : c.ended = false)
    (kept : ∀ p v owned dropped, c = .acquiring p (.acquired v owned dropped) →
      ∃ dropped', c' = .acquiring p (.acquired v owned dropped')) : y.Extends (y.put i c') where
  live_kept _ _ h := h
  answered j d hj ended := by
    have hne : j ≠ i := by
      rintro rfl
      rw [hi] at hj
      obtain rfl := Option.some.inj hj
      rw [unended] at ended
      cases ended
    exact (call_put_of_ne hne c').trans hj
  held j p v owned dropped hj := by
    by_cases hij : j = i
    · subst hij
      rw [hi] at hj
      obtain ⟨dropped', rfl⟩ := kept p v owned dropped (Option.some.inj hj)
      exact ⟨dropped', call_put_self hi _⟩
    · exact ⟨dropped, (call_put_of_ne hij c').trans hj⟩

theorem extends_step (y : SharedViews) (a : ViewAction) : y.Extends (y.step a) := by
  cases a with
  | opens p => exact extends_arrive y _
  | acquires p => exact extends_arrive y _
  | advance i =>
    cases hi : y.calls[i]? with
    | none =>
      simp only [step, hi]
      exact .refl y
    | some c =>
      have hm := moves_advance hi
      generalize y.step (.advance i) = y' at hm
      cases hm with
      | turns turn =>
        cases turn with
        | drops =>
          refine extends_put hi rfl fun p v owned dropped he => ?_
          cases he
          exact ⟨true, rfl⟩
        | _ => exact extends_put hi rfl nofun
      | @enters p index absent =>
        have hentered : y.Extends (y.enter i p index) :=
          ⟨fun q v hq => live_enter_of_live hq absent i index, fun _ _ h _ => h,
            fun _ _ _ _ dropped h => ⟨dropped, h⟩⟩
        exact hentered.trans (extends_put (y := y.enter i p index) hi rfl nofun)
      | stays ended => exact .refl y
  | files t => exact ⟨fun _ _ h => h, fun _ _ h _ => h, fun _ _ _ _ dropped h => ⟨dropped, h⟩⟩

theorem extends_run (y : SharedViews) (as : List ViewAction) : y.Extends (y.run as) :=
  run_induction (P := fun _ => y.Extends) (.refl y)
    (fun as a h => run_snoc y as a ▸ h.trans (extends_step _ a)) as

/-- A step of a call leaves the table unless the call returns a view that it enters. -/
theorem table_advance (y : SharedViews) (i : Nat) :
    (y.step (.advance i)).table = y.table ∨
      ∃ p v, (y.step (.advance i)).calls[i]? = some (.opening p (.opened v)) ∧ v.maker = i := by
  cases hi : y.calls[i]? with
  | none =>
    left
    simp only [step, hi]
  | some c =>
    have hm := moves_advance hi
    generalize y.step (.advance i) = y' at hm
    cases hm with
    | turns turn => exact Or.inl rfl
    | @enters p index absent =>
      exact Or.inr ⟨p, ⟨index, i⟩, call_put_self (y := y.enter i p index) hi _, rfl⟩
    | stays ended => exact Or.inl rfl

/-- No step of a call that acquires, or fails to open, has changed the table. -/
theorem table_eq_of_abstains {before later : List ViewAction}
    (hi : (y.run (before ++ .advance i :: later)).calls[i]? = some c)
    (abstains : c.abstains = true) :
    ((y.run before).step (.advance i)).table = (y.run before).table := by
  rcases table_advance (y.run before) i with hsame | ⟨p, v, hopened, -⟩
  · exact hsame
  · have hfinal := (extends_run _ later).answered i _ hopened rfl
    rw [run_append] at hi
    change (SharedViews.run (SharedViews.step _ _) later).calls[i]? = _ at hi
    rw [hi] at hfinal
    cases hfinal
    cases abstains

/-- The first turn of a call is its look-up. -/
theorem Turns.after_arrival (h : y.Turns i c c') (fresh : c.arrival = c) :
    c'.After (y.live c.path) := by
  cases h with
  | reuses present => exact Or.inr present
  | borrows present => exact present
  | misses absent | passes absent => exact absent
  | _ => cases fresh

/-- A later turn keeps to what the look-up has found. -/
theorem Turns.after (h : y.Turns i c c') {found : Option MadeView} (hc : c.After found) :
    c'.After found := by
  cases h with
  | reuses | misses | borrows | passes => exact hc.elim
  | indexes | fails | owns | resigns | drops => exact hc
  | joins => exact Or.inl hc

/-- A call is where it can be after its look-up, which was one of the steps of the run. -/
def LookedUp (t : FileTree) (as : List ViewAction) (i : Nat) (c : ViewCall) : Prop :=
  ∃ before later, as = before ++ .advance i :: later ∧
    ((start t).run before).calls[i]? = some c.arrival ∧
    c.After (((start t).run before).live c.path)

theorem LookedUp.snoc {t : FileTree} {as : List ViewAction} (h : LookedUp t as i c)
    (a : ViewAction) (harrival : c'.arrival = c.arrival) (hpath : c'.path = c.path)
    (hafter : ∀ found, c.After found → c'.After found) : LookedUp t (as ++ [a]) i c' := by
  obtain ⟨before, later, rfl, hi, hc⟩ := h
  refine ⟨before, later ++ [a], by simp, ?_, ?_⟩
  · rw [harrival, hi]
  · rw [hpath]
    exact hafter _ hc

theorem Turns.arrival_eq (h : y.Turns i c c') : c'.arrival = c.arrival ∧ c'.path = c.path := by
  cases h <;> exact ⟨rfl, rfl⟩

/-- A call that moves on does so from its look-up. -/
theorem lookedUp_turn {t : FileTree} {as : List ViewAction}
    (hi : ((start t).run as).calls[i]? = some c) (turn : ((start t).run as).Turns i c c')
    (h : c.arrival = c ∨ LookedUp t as i c) : LookedUp t (as ++ [.advance i]) i c' := by
  obtain ⟨harrival, hpath⟩ := turn.arrival_eq
  rcases h with hfresh | h
  · refine ⟨as, [], rfl, ?_, ?_⟩
    · rw [harrival, hfresh, hi]
    · rw [hpath]
      exact turn.after_arrival hfresh
  · exact h.snoc _ harrival hpath fun _ => turn.after

/-- Every call that is not where it arrived has had its look-up. -/
theorem lookedUp_run (t : FileTree) (as : List ViewAction) (i : Nat) (c : ViewCall)
    (hi : ((start t).run as).calls[i]? = some c) : c.arrival = c ∨ LookedUp t as i c := by
  induction as using List.reverseRecOn generalizing i c with
  | nil => cases hi
  | append_singleton as a ih =>
    -- a call that has not moved is where it was
    have hkept (h : ((start t).run as).calls[i]? = some c) :
        c.arrival = c ∨ LookedUp t (as ++ [a]) i c :=
      (ih i c h).imp_right fun h => h.snoc a rfl rfl fun _ => id
    rw [run_snoc] at hi
    cases a with
    | opens p | acquires p =>
      rcases call_arrive hi with hi | ⟨-, rfl⟩
      · exact hkept hi
      · exact Or.inl rfl
    | advance j =>
      cases hj : ((start t).run as).calls[j]? with
      | none =>
        simp only [step, hj] at hi
        exact hkept hi
      | some d =>
        have hm := moves_advance hj
        generalize SharedViews.step _ _ = y' at hm hi
        cases hm with
        | turns turn =>
          rcases call_put hi with ⟨rfl, rfl⟩ | ⟨-, hi⟩
          · exact Or.inr (lookedUp_turn hj turn (ih i d hj))
          · exact hkept hi
        | @enters p index absent =>
          have hindexed : LookedUp t as j (.opening p (.indexed index)) :=
            (ih j _ hj).resolve_left nofun
          rcases call_put (y := SharedViews.enter _ j p index) hi with ⟨rfl, rfl⟩ | ⟨-, hi⟩
          · exact Or.inr (hindexed.snoc _ rfl rfl fun _ => Or.inl)
          · exact hkept hi
        | stays ended => exact hkept hi
    | files t' => exact hkept hi

/-- A handle owns its view exactly if no view was live when its call looked; otherwise it has the
one that was. -/
theorem lookedUp_of_acquired {t : FileTree} {as : List ViewAction} {owned dropped : Bool}
    (hi : ((start t).run as).calls[i]? = some (.acquiring p (.acquired v owned dropped))) :
    ∃ before later, as = before ++ .advance i :: later ∧
      ((start t).run before).calls[i]? = some (.acquiring p .arrived) ∧
      (owned = true ↔ ((start t).run before).live p = none) ∧
      (owned = false → ((start t).run before).live p = some v) := by
  rcases lookedUp_run t as i _ hi with hfresh | ⟨before, later, he, hbefore, hlive⟩
  · cases hfresh
  · change SharedViews.live _ p = _ at hlive
    refine ⟨before, later, he, hbefore, ?_⟩
    rw [hlive]
    cases owned <;> simp

/-- However the steps of any number of calls mix with each other and with changes of the files, the
table stays safe, and it never loses what it holds. -/
structure KeepsViews (t : FileTree) (as : List ViewAction) : Prop where
  /-- The table has one view for every archive, which is the one that calls return. -/
  safe : ((start t).run as).Safe
  /-- Whatever happens later extends what is there. -/
  lasting : ∀ later, ((start t).run as).Extends ((start t).run (as ++ later))
  /-- A call to open has returned the view that the table holds from then on, under every path of
  the same components. -/
  opened : ∀ (i : Nat) p v, ((start t).run as).calls[i]? = some (.opening p (.opened v)) →
    ∀ later q, q.components = p.components →
      ((start t).run (as ++ later)).live q = some v
  /-- A handle owns its view exactly if no view was live when its call looked; otherwise it has the
  one that was. -/
  acquired : ∀ (i : Nat) p v owned dropped,
    ((start t).run as).calls[i]? = some (.acquiring p (.acquired v owned dropped)) →
      ∃ before later, as = before ++ .advance i :: later ∧
        ((start t).run before).calls[i]? = some (.acquiring p .arrived) ∧
        (owned = true ↔ ((start t).run before).live p = none) ∧
        (owned = false → ((start t).run before).live p = some v)
  /-- A view that a handle owns is never live. -/
  unadopted : ∀ (i : Nat) p v dropped,
    ((start t).run as).calls[i]? = some (.acquiring p (.acquired v true dropped)) →
      ∀ q, ((start t).run as).live q ≠ some v
  /-- No step of a call that acquires, or fails to open, has changed the table. -/
  untouched : ∀ (i : Nat) c, ((start t).run as).calls[i]? = some c → c.abstains = true →
    ∀ before later, as = before ++ .advance i :: later →
      ((start t).run (before ++ [.advance i])).table = ((start t).run before).table

/-- After every run the table has kept its views. -/
theorem keepsViews_run (t : FileTree) (as : List ViewAction) : KeepsViews t as where
  safe := safe_run t as
  lasting later := run_append (start t) as later ▸ extends_run _ later
  opened i p v hi later q hq := by
    rw [live_congr hq, run_append]
    exact (extends_run _ later).live_kept p v ((safe_run t as).opened i p v hi)
  acquired _ _ _ _ _ hi := lookedUp_of_acquired hi
  unadopted _ _ _ _ hi q := (safe_run t as).live_ne_of_owned hi q
  untouched i c hi abstains before later he := by
    subst he
    rw [run_snoc]
    exact table_eq_of_abstains hi abstains

end SharedViews

end Overlay
