import Overlay.Proofs.DescribeOnce

/-!
# Callers that nothing disturbs

A caller whose steps follow each other without an interruption, and who waits for nobody, carries out
the task that it came with: it ends with the task's answer and leaves the pipeline and its module
loaders as the task does. `finished_alone` so ties the cells and the steps of callers to the tasks.
-/

namespace Overlay.Session

variable {φ β : Type} {b : Blueprint φ β} {y z : Session φ β} {i c : Nat} {e : Errand} {p : Path}

/-- Steps of one caller alone lead from one moment to another. -/
def Alone (b : Blueprint φ β) (i : Nat) : Session φ β → Session φ β → Prop :=
  Relation.ReflTransGen fun y z => y.step b (.advance i) = z

theorem Agreed.alone (h : y.Agreed) (hz : Alone b i y z) : z.Agreed := by
  induction hz with
  | refl => exact h
  | tail before last ih => exact last ▸ (ih.step _).1

@[simp] theorem moveTo_moveTo (y : Session φ β) (i : Nat) (e e' : Errand) (a a' : Asking) :
    (y.moveTo i e a).moveTo i e' a' = y.moveTo i e' a' := by
  simp [moveTo]

/-- A caller that asks takes its step by asking. -/
theorem alone_of_ask (asks : e.asks? = some p) {a : Asking} (hi : y.callers[i]? = some ⟨e, a⟩)
    (hz : Alone b i (y.ask i e p a) z) : Alone b i y z := by
  refine .head ?_ hz
  rw [step_advance hi, advance]
  simp only [asks]

theorem ask_reading {stage : ReadingStage} (unfinished : stage.left ≠ 0) (y : Session φ β)
    (i : Nat) (e : Errand) (p : Path) (c : Nat) :
    y.ask i e p (.reading c stage) = y.moveTo i e
      (.reading c (stage.next y.tree y.pipeline.metadata y.pipeline.lookups.archives p)) := by
  cases stage with
  | ended result => exact absurd rfl unfinished
  | _ => rfl

/-- A reading that nothing interrupts comes to its end. -/
theorem alone_reading {caller : Caller} (asks : e.asks? = some p)
    (hi : y.callers[i]? = some caller) {k : Nat} {stage : ReadingStage}
    {result : Except IoError Descriptor}
    (h : stage.alone y.tree y.pipeline.metadata y.pipeline.lookups.archives p k =
      .ended result) :
    Alone b i (y.moveTo i e (.reading c stage)) (y.moveTo i e (.reading c (.ended result))) := by
  induction k generalizing stage with
  | zero =>
    obtain rfl : stage = .ended result := h
    exact .refl
  | succ k ih =>
    have hmoved := caller_moveTo_self hi e (.reading c stage)
    by_cases hleft : stage.left = 0
    · obtain ⟨r, rfl⟩ := ReadingStage.eq_ended_of_left hleft
      exact ih h
    · refine alone_of_ask asks hmoved ?_
      rw [ask_reading hleft, moveTo_moveTo]
      exact ih h

/-- A caller that has a full cell goes on with what is in it. -/
theorem alone_full (asks : e.asks? = some p) (hi : y.callers[i]? = some ⟨e, .waiting c⟩)
    {key : PathKey} {d : Descriptor} (full : y.cells[c]? = some ⟨key, .full d⟩) :
    Alone b i y ((y.answered p d).moveTo i (e.resume d) .idle) := by
  refine alone_of_ask asks hi ?_
  simp only [ask, full]
  exact .refl

/-- A caller that has an empty cell reads the descriptor for it and goes on with what it has read. -/
theorem alone_empty (asks : e.asks? = some p) (hi : y.callers[i]? = some ⟨e, .waiting c⟩)
    {key : PathKey} (empty : y.cells[c]? = some ⟨key, .empty⟩) :
    let result := y.pipeline.metadata.compute y.tree y.pipeline.lookups.archives p
    let filled := ((y.beginReading i c p).fill c p result).moveTo i e (.waiting c)
    Alone b i y ((filled.answered p (MetadataCache.readAs result)).moveTo i
      (e.resume (MetadataCache.readAs result)) .idle) := by
  intro result filled
  have hreader : (y.beginReading i c p).callers[i]? = some ⟨e, .waiting c⟩ := hi
  have hbegun : Alone b i y ((y.beginReading i c p).moveTo i e (.reading c .start)) := by
    refine alone_of_ask asks hi ?_
    simp only [ask, empty]
    exact .refl
  have hended : Alone b i ((y.beginReading i c p).moveTo i e (.reading c .start))
      ((y.beginReading i c p).moveTo i e (.reading c (.ended result))) :=
    alone_reading asks hreader
      (ReadingStage.finished_alone y.tree y.pipeline.metadata y.pipeline.lookups.archives p)
  have hfilled : Alone b i ((y.beginReading i c p).moveTo i e (.reading c (.ended result)))
      filled := by
    refine alone_of_ask asks (caller_moveTo_self hreader _ _) ?_
    change Alone b i ((((y.beginReading i c p).fill c p result).moveTo i e _).moveTo i e _) filled
    rw [moveTo_moveTo]
    exact .refl
  have hfull : filled.cells[c]? = some ⟨key, .full (MetadataCache.readAs result)⟩ := by
    change (((y.setContent c (.busy i)).setContent c _).cells[c]?) = _
    rw [cells_setContent, cells_setContent, empty]
    simp
  have hwaiting : filled.callers[i]? = some ⟨e, .waiting c⟩ :=
    caller_moveTo_self (y := (y.beginReading i c p).fill c p result) hreader e (.waiting c)
  exact hbegun.trans (hended.trans (hfilled.trans (alone_full asks hwaiting hfull)))

/-- A caller that needs a descriptor goes on with the one that is answered at once, and leaves all
else as it is left by asking at once. -/
structure GoesOn (y : Session φ β) (i : Nat) (e : Errand) (p : Path) (z : Session φ β) :
    Prop where
  /-- It goes on with the descriptor. -/
  caller : z.callers[i]? = some ⟨e.resume (y.pipeline.descriptorFor y.tree p).1, .idle⟩
  /-- The other callers are where they were. -/
  others : ∀ j, j ≠ i → z.callers[j]? = y.callers[j]?
  /-- The pipeline is the one after the question, and the module loaders are the same. -/
  ensemble : z.toEnsemble =
    { y.toEnsemble with pipeline := (y.pipeline.descriptorFor y.tree p).2 }
  /-- The answer is noted. -/
  answers : z.answers = y.answers ++ [(p, (y.pipeline.descriptorFor y.tree p).1)]

/-- A caller that has the cell of the origin it asks for gets the descriptor, if nobody else is
reading it. -/
theorem alone_waiting (b : Blueprint φ β) (h : y.Sound) (asks : e.asks? = some p)
    (hi : y.callers[i]? = some ⟨e, .waiting c⟩) (free : ∀ j, y.readBy? j ≠ some p.components) :
    ∃ z, Alone b i y z ∧ y.GoesOn i e p z := by
  obtain ⟨key, content, hcell, hcontent⟩ := h.cell_of_waiting asks hi
  cases content with
  | busy j => exact absurd ((h.busy_iff _ j).1 hcontent) (free j)
  | full d =>
    refine ⟨_, alone_full asks hi hcell, ?_⟩
    have hd := Pipeline.descriptorFor_of_some (h.kept_of_full asks hi hcell) y.tree
    refine ⟨?_, fun j hj => caller_moveTo_of_ne (y := y.answered p d) hj _ _, ?_, ?_⟩
    · rw [hd]
      exact caller_moveTo_self (y := y.answered p d) hi _ _
    · rw [hd]
      rfl
    · rw [hd]
      rfl
  | empty =>
    have hnone : y.pipeline.metadata.get? p = none := by
      cases hd : y.pipeline.metadata.get? p with
      | none => rfl
      | some d =>
        rw [(h.full_iff _ d).2 hd] at hcontent
        cases hcontent
    refine ⟨_, alone_empty asks hi hcell, ?_⟩
    have hd := Pipeline.descriptorFor_of_none hnone y.tree
    generalize y.pipeline.metadata.compute y.tree y.pipeline.lookups.archives p = result at hd ⊢
    have hwaiting : (((y.beginReading i c p).fill c p result).moveTo i e
        (.waiting c)).callers[i]? = some ⟨e, .waiting c⟩ :=
      caller_moveTo_self (y := (y.beginReading i c p).fill c p result) hi e (.waiting c)
    refine ⟨?_, fun j hj => ?_, ?_, ?_⟩
    · rw [hd]
      exact caller_moveTo_self (y := Session.answered _ p _) hwaiting _ _
    · refine (caller_moveTo_of_ne (y := Session.answered _ p _) hj _ _).trans ?_
      exact caller_moveTo_of_ne (y := (y.beginReading i c p).fill c p result) hj _ _
    · rw [hd]
      rfl
    · rw [hd]
      rfl

/-- A caller gets the descriptor that it needs, if nobody else is reading it. -/
theorem alone_asking (b : Blueprint φ β) (h : y.Sound) (asks : e.asks? = some p)
    (hi : y.callers[i]? = some ⟨e, .idle⟩) (free : ∀ j, y.readBy? j ≠ some p.components) :
    ∃ z, Alone b i y z ∧ y.GoesOn i e p z := by
  have hfree {v : Session φ β} (hv : v.callers[i]? = some ⟨e, .idle⟩)
      (hsame : v.readBy? = y.readBy?) (c : Nat) (j : Nat) :
      (v.moveTo i e (.waiting c)).readBy? j ≠ some p.components := by
    rw [readBy?_moveTo hv, hsame]
    split
    · simp [Caller.reads?]
    · exact free j
  have hothers {v z : Session φ β} {c : Nat} (hc : v.callers = y.callers)
      (hz : ∀ j, j ≠ i → z.callers[j]? = (v.moveTo i e (.waiting c)).callers[j]?) (j : Nat)
      (hj : j ≠ i) : z.callers[j]? = y.callers[j]? := by
    rw [hz j hj, caller_moveTo_of_ne hj, hc]
  have hcell {c : Nat} (c' : Nat) (hc : (Asking.waiting c).cell? = some c') : c = c' :=
    Option.some.inj hc
  cases htable : y.cellTable.get? p.components with
  | some c =>
    have hsound : (y.moveTo i e (.waiting c)).Sound :=
      h.moveTo hi rfl fun c' hc' => ⟨p, asks, hcell c' hc' ▸ htable⟩
    obtain ⟨z, hz, hgoes⟩ := alone_waiting b hsound asks (caller_moveTo_self hi _ _)
      (hfree hi rfl c)
    refine ⟨z, alone_of_ask asks hi ?_, hgoes.caller, hothers rfl hgoes.others, hgoes.ensemble,
      hgoes.answers⟩
    simp only [ask, htable]
    exact hz
  | none =>
    have hmade : (y.makeCell p.components).callers[i]? = some ⟨e, .idle⟩ := hi
    have hsound : ((y.makeCell p.components).moveTo i e (.waiting y.cells.length)).Sound :=
      (h.makeCell htable).moveTo hmade rfl fun c' hc' =>
        ⟨p, asks, hcell c' hc' ▸ Table.get?_insert_self ..⟩
    obtain ⟨z, hz, hgoes⟩ := alone_waiting b hsound asks (caller_moveTo_self hmade _ _)
      (hfree hmade rfl y.cells.length)
    refine ⟨z, alone_of_ask asks hi ?_, hgoes.caller, hothers rfl hgoes.others, hgoes.ensemble,
      hgoes.answers⟩
    simp only [ask, htable]
    exact hz

/-- Nobody reads a descriptor. -/
def Quiet (y : Session φ β) : Prop := ∀ i, y.readBy? i = none

/-- An idle caller that nothing disturbs carries out its errand step by step. -/
theorem alone_reaches (h : y.Agreed) (quiet : y.Quiet) (hi : y.callers[i]? = some ⟨e, .idle⟩)
    {x : Errand × Ensemble φ β} (hx : Errand.Reaches b (e, y.toEnsemble) x) :
    ∃ z, Alone b i y z ∧ z.callers[i]? = some ⟨x.1, .idle⟩ ∧ z.toEnsemble = x.2 := by
  generalize hfrom : (e, y.toEnsemble) = v at hx
  induction hx using Relation.ReflTransGen.head_induction_on generalizing y e with
  | refl =>
    subst hfrom
    exact ⟨y, .refl, hi, rfl⟩
  | head first rest ih =>
    subst hfrom
    subst first
    -- one step of the errand takes the caller to another quiet moment at which it is idle
    suffices hstep : ∃ w, Alone b i y w ∧ w.Quiet ∧
        w.callers[i]? = some ⟨(e.next b y.toEnsemble).1, .idle⟩ ∧
        w.toEnsemble = (e.next b y.toEnsemble).2 by
      obtain ⟨w, hw, hquiet, hcaller, hensemble⟩ := hstep
      obtain ⟨z, hz, hend⟩ := ih (h.alone hw) hquiet hcaller (Prod.ext rfl hensemble)
      exact ⟨z, hw.trans hz, hend⟩
    unfold Errand.next
    cases hasks : e.asks? with
    | none =>
      refine ⟨(y.work b e).moveTo i (e.proceed b y.toEnsemble).1 .idle, .single ?_, fun j => ?_,
        caller_moveTo_self (y := y.work b e) hi _ _, rfl⟩
      · rw [step_advance hi, advance]
        simp only [hasks]
      · rw [readBy?_moveTo (y := y.work b e) hi]
        split
        · rfl
        · exact quiet j
    | some p =>
      obtain ⟨w, hw, hgoes⟩ := alone_asking b h.toSound hasks hi fun j => by simp [quiet j]
      refine ⟨w, hw, fun j => ?_, hgoes.caller, hgoes.ensemble⟩
      by_cases hj : j = i
      · rw [hj, readBy?, hgoes.caller]
        rfl
      · rw [readBy?, hgoes.others j hj]
        exact quiet j

/-- A task that comes in while nobody reads, and whose caller nothing disturbs, ends with the answer
and the ensemble of the whole task. -/
theorem finished_alone (h : y.Agreed) (quiet : y.Quiet) {k : HostTask}
    (hk : k.errand? y.toEnsemble = some e) (b : Blueprint φ β) :
    ∃ z e', Alone b y.callers.length (y.step b (.task k)) z ∧
      z.callers[y.callers.length]? = some ⟨e', .idle⟩ ∧
      z.toEnsemble = (k.run b y.toEnsemble).2 ∧
      e'.answer? = some (k.run b y.toEnsemble).1 := by
  have herrands : k.errands y.toEnsemble = [e] := by
    cases k with
    | prewarm => cases hk
    | _ => exact congrArg Option.toList hk
  have hreceived : y.step b (.task k) = { y with callers := y.callers ++ [⟨e, .idle⟩] } := by
    rw [step, receive_of_ne_nil (by simp [herrands]), herrands, List.map_singleton]
  have hagreed := (h.step (b := b) (.task k)).1
  obtain ⟨e', hreaches, hanswer⟩ := k.reaches_run hk b
  rw [hreceived] at hagreed ⊢
  have hquiet : Quiet { y with callers := y.callers ++ [⟨e, .idle⟩] } := by
    intro j
    rw [readBy?, List.getElem?_append]
    split
    · exact quiet j
    · cases j - y.callers.length <;> rfl
  obtain ⟨z, hz, hcaller, hensemble⟩ := alone_reaches hagreed hquiet
    List.getElem?_concat_length hreaches
  exact ⟨z, e', hz, hcaller, hensemble, hanswer⟩

end Overlay.Session
