import Overlay.Proofs.Cells

/-!
# Every descriptor is read once

However the steps of any number of callers mix with each other and with changes of the files, the
descriptor of an origin is read at most once and kept for good, and all who ask for it get that one:
direct calls, the loads of the pipeline and of its module loaders, prewarming and the look-ups of a
start. Symbols whose origins have locations with the same components are described alike.
-/

namespace Overlay.Session

variable {φ β : Type} {b : Blueprint φ β} {y : Session φ β} {i : Nat} {caller : Caller}
  {m : MetadataCache}

/-- What callers have got, what they have in hand and what was defined is described by what is
kept. -/
structure Agreed (y : Session φ β) : Prop extends y.Sound where
  /-- An answer is the kept descriptor. -/
  answered : ∀ p d, (p, d) ∈ y.answers → y.pipeline.metadata.get? p = some d
  /-- What callers have in hand is described. -/
  errands : ∀ (j : Nat) (c : Caller), y.callers[j]? = some c →
    c.errand.Described y.pipeline.metadata
  /-- All symbols are described. -/
  symbols : y.toEnsemble.Described

theorem agreed_start (b : Blueprint φ β) (t : FileTree) (f : φ) (g : β) :
    (start b t f g).Agreed where
  toSound := sound_start b t f g
  answered p d h := by cases h
  errands j c h := by cases h
  symbols := by
    constructor
    · intro n x h
      cases h
    · intro l h
      cases h

/-- A caller that moves with something described leaves described what all have in hand. -/
theorem errands_moveTo (i : Nat) {e : Errand} (a : Asking)
    (h : ∀ (j : Nat) (c : Caller), y.callers[j]? = some c → c.errand.Described m)
    (he : e.Described m) (j : Nat) (c : Caller)
    (hj : (y.moveTo i e a).callers[j]? = some c) : c.errand.Described m := by
  rcases caller_moveTo hj with ⟨-, rfl⟩ | ⟨-, hj⟩
  · exact he
  · exact h j c hj

/-- A caller that waits has the cell of the origin that it asks for. -/
theorem Sound.cell_of_waiting (h : y.Sound) {e : Errand} {p : Path} {c : Nat}
    (asks : e.asks? = some p) (hi : y.callers[i]? = some ⟨e, .waiting c⟩) :
    ∃ key content, y.cells[c]? = some ⟨key, content⟩ ∧
      y.contentOf? p.components = some content := by
  have htable := h.table_of_cell asks hi rfl
  obtain ⟨⟨key, content⟩, hcell, -⟩ := h.named _ c htable
  exact ⟨key, content, hcell, by rw [contentOf?_of_table htable, hcell, Option.map_some]⟩

/-- A full cell that a caller has holds the kept descriptor of the origin that it asks for. -/
theorem Sound.kept_of_full (h : y.Sound) {e : Errand} {p : Path} {c : Nat} {key : PathKey}
    {d : Descriptor} (asks : e.asks? = some p) (hi : y.callers[i]? = some ⟨e, .waiting c⟩)
    (full : y.cells[c]? = some ⟨key, .full d⟩) : y.pipeline.metadata.get? p = some d := by
  obtain ⟨key', content, hcell, hcontent⟩ := h.cell_of_waiting asks hi
  rw [full] at hcell
  cases hcell
  exact (h.full_iff _ d).1 hcontent

/-- Every step of a caller keeps everything described, and keeps all kept descriptors. -/
theorem Agreed.advance (h : y.Agreed) (hi : y.callers[i]? = some caller) :
    (y.advance b i caller).Agreed ∧
      y.pipeline.metadata.KeptBy (y.advance b i caller).pipeline.metadata := by
  have hsound := h.toSound.advance (b := b) h.symbols h.errands hi
  have hm := moves_advance b y i caller
  generalize y.advance b i caller = z at hm hsound ⊢
  cases hm with
  | @works e a asks =>
    have hleaves := Errand.Described.proceed (h.errands i _ hi) h.symbols asks b
    have hmetadata : (y.work b e).pipeline.metadata = y.pipeline.metadata := hleaves.metadata
    refine ⟨⟨hsound, ?_, ?_, hleaves.symbols⟩, .of_eq hmetadata⟩
    · change ∀ p d, (p, d) ∈ y.answers → (y.work b e).pipeline.metadata.get? p = some d
      rw [hmetadata]
      exact h.answered
    · change ∀ (j : Nat) (c : Caller), _ → c.errand.Described (y.work b e).pipeline.metadata
      rw [hmetadata]
      exact errands_moveTo (y := y.work b e) i .idle h.errands hleaves.errand
  | finds asks found =>
    exact ⟨⟨hsound, h.answered, errands_moveTo i _ h.errands (h.errands i _ hi), h.symbols⟩,
      .of_eq rfl⟩
  | @makes e p asks absent =>
    have he := errands_moveTo (y := y.makeCell p.components) i (.waiting y.cells.length) h.errands
      (h.errands i _ hi)
    exact ⟨⟨hsound, h.answered, he, h.symbols⟩, .of_eq rfl⟩
  | @takes e p c key d asks full =>
    have hd := h.toSound.kept_of_full asks hi full
    have he := errands_moveTo (y := y.answered p d) i .idle h.errands
      (Errand.described_resume asks hd)
    refine ⟨⟨hsound, fun q d' hq => ?_, he, h.symbols⟩, .of_eq rfl⟩
    rcases List.mem_append.1 hq with hq | hq
    · exact h.answered q d' hq
    · cases List.mem_singleton.1 hq
      exact hd
  | @begins e p c key asks empty =>
    have he := errands_moveTo (y := y.beginReading i c p) i (.reading c .start) h.errands
      (h.errands i _ hi)
    exact ⟨⟨hsound, h.answered, he, h.symbols⟩, .of_eq rfl⟩
  | reads asks unfinished =>
    exact ⟨⟨hsound, h.answered, errands_moveTo i _ h.errands (h.errands i _ hi), h.symbols⟩,
      .of_eq rfl⟩
  | @fills e p c result asks =>
    have hnone := (h.toSound.busy_of_reading asks hi).2
    have hkept : y.pipeline.metadata.KeptBy (y.pipeline.keepRead p result).metadata := by
      intro q d hd
      rw [Pipeline.metadata_keepRead]
      exact MetadataCache.get?_keep_of_some hnone hd _
    have he := errands_moveTo (y := y.fill c p result) i (.waiting c)
      (fun j c hj => (h.errands j c hj).mono hkept) ((h.errands i _ hi).mono hkept)
    have hs := h.symbols.withPipeline
      (h.symbols.pipeline.mono (Pipeline.defined_keepRead p result y.pipeline) hkept) hkept
    exact ⟨⟨hsound, fun q d hq => hkept q d (h.answered q d hq), he, hs⟩, hkept⟩
  | waits asks busy => exact ⟨h, .of_eq rfl⟩

/-- A task that comes in keeps everything described and changes no descriptors. -/
theorem Agreed.receive (h : y.Agreed) (k : HostTask) :
    (y.receive b k).Agreed ∧
      (y.receive b k).pipeline.metadata = y.pipeline.metadata := by
  have hsound := h.toSound.receive (b := b) h.symbols k
  by_cases hk : k.errands y.toEnsemble = []
  · obtain ⟨hmetadata, hsymbols⟩ := k.described_run hk h.symbols b
    rw [receive_of_nil hk] at hsound ⊢
    refine ⟨⟨hsound, ?_, ?_, hsymbols⟩, hmetadata⟩
    · simpa only [hmetadata] using h.answered
    · simpa only [hmetadata] using h.errands
  · have hcallers (j : Nat) (c : Caller) (hj : (y.receive b k).callers[j]? = some c) :
        c.errand.Described y.pipeline.metadata := by
      rcases caller_receive hj with hj | ⟨-, hmem⟩
      · exact h.errands j c hj
      · exact HostTask.described_errands hmem _
    rw [receive_of_ne_nil hk] at hsound hcallers ⊢
    exact ⟨⟨hsound, h.answered, hcallers, h.symbols⟩, rfl⟩

/-- Whatever happens keeps everything described, and keeps all kept descriptors. -/
theorem Agreed.step (h : y.Agreed) (turn : Turn) :
    (y.step b turn).Agreed ∧
      y.pipeline.metadata.KeptBy (y.step b turn).pipeline.metadata := by
  cases turn with
  | task k =>
    obtain ⟨hagreed, hmetadata⟩ := h.receive (b := b) k
    exact ⟨hagreed, .of_eq hmetadata⟩
  | advance i =>
    cases hi : y.callers[i]? with
    | none =>
      simp only [Session.step, hi]
      exact ⟨h, .of_eq rfl⟩
    | some caller =>
      rw [step_advance hi]
      exact h.advance hi
  | files t =>
    exact ⟨⟨h.toSound.congr rfl rfl rfl rfl rfl, h.answered, h.errands,
      h.symbols.pipeline, h.symbols.modules⟩, .of_eq rfl⟩

theorem Agreed.run (h : y.Agreed) (turns : List Turn) :
    (y.run b turns).Agreed ∧
      y.pipeline.metadata.KeptBy (y.run b turns).pipeline.metadata :=
  run_induction (P := fun z => z.Agreed ∧ y.pipeline.metadata.KeptBy z.pipeline.metadata)
    ⟨h, .of_eq rfl⟩
    (fun _ turn hz => ⟨(hz.1.step turn).1, fun p d hp => (hz.1.step turn).2 p d (hz.2 p d hp)⟩)
    turns

/-- A caller that reads a descriptor has it kept after a few steps of its own, whatever happens
between them. -/
theorem Agreed.filled_run (h : y.Agreed) {e : Errand} {p : Path} {c : Nat} {stage : ReadingStage}
    (asks : e.asks? = some p) (hi : y.callers[i]? = some ⟨e, .reading c stage⟩)
    {turns : List Turn} (enough : stage.left < (turns.filterMap Turn.caller?).count i) :
    ∃ d, (y.run b turns).pipeline.metadata.get? p = some d := by
  induction turns generalizing y stage with
  | nil => cases enough
  | cons turn turns ih =>
    have hstep := (h.step (b := b) turn).1
    change ∃ d, ((y.step b turn).run b turns).pipeline.metadata.get? p = some d
    by_cases hturn : turn = .advance i
    · subst hturn
      have hcount : stage.left < (turns.filterMap Turn.caller?).count i + 1 := by
        simpa [Turn.caller?] using enough
      rw [step_advance hi] at hstep ⊢
      have hm := moves_advance b y i ⟨e, .reading c stage⟩
      generalize y.advance b i ⟨e, .reading c stage⟩ = z at hm hstep ⊢
      cases hm with
      | works none => cases none.symm.trans asks
      | @reads e p' c stage asks' unfinished =>
        have hleft := ReadingStage.left_next unfinished y.tree y.pipeline.metadata
          y.pipeline.lookups.archives p'
        exact ih hstep (caller_moveTo_self hi _ _) (by omega)
      | @fills e p' c result asks' =>
        obtain rfl : p = p' := Option.some.inj (asks.symm.trans asks')
        refine ⟨MetadataCache.readAs result, (hstep.run turns).2 p _ ?_⟩
        change (y.pipeline.keepRead p result).metadata.get? p = _
        rw [Pipeline.metadata_keepRead, MetadataCache.get?_keep_self]
    · rw [Turn.count_of_ne hturn] at enough
      exact ih hstep (caller_step_of_ne hturn hi b) enough

/-- Every descriptor is read once and shared by all who ask for it. -/
structure DescribesOnce (b : Blueprint φ β) (y : Session φ β) : Prop where
  /-- No reading of a location's descriptor was begun twice. -/
  once : y.begun.Nodup
  /-- A kept descriptor was read. -/
  begun : ∀ p d, y.pipeline.metadata.get? p = some d → p.components ∈ y.begun
  /-- Whoever got an answer got the kept descriptor. -/
  answered : ∀ p d, (p, d) ∈ y.answers → y.pipeline.metadata.get? p = some d
  /-- A symbol of the pipeline or of a module loader has the descriptor that is kept for its
  origin. -/
  described : ∀ x p, y.Defines x → x.codeSource = some p →
    y.pipeline.metadata.get? p = some x.descriptor
  /-- A caller that has a cell and asks for a kept descriptor goes on with it at its next step. -/
  prompt : ∀ (i : Nat) e c p d, y.callers[i]? = some ⟨e, .waiting c⟩ → e.asks? = some p →
    y.pipeline.metadata.get? p = some d →
    y.step b (.advance i) = (y.answered p d).moveTo i (e.resume d) .idle
  /-- A caller that has a cell and asks for a descriptor that is not kept begins to read it at its
  next step, unless another caller is reading it. -/
  waits : ∀ (i : Nat) e c p, y.callers[i]? = some ⟨e, .waiting c⟩ → e.asks? = some p →
    y.pipeline.metadata.get? p = none → (∃ j, y.readBy? j = some p.components) ∨
      y.step b (.advance i) = (y.beginReading i c p).moveTo i e (.reading c .start)
  /-- A caller that is reading has its descriptor kept after at most five steps of its own. -/
  reads : ∀ (i : Nat) e c stage p, y.callers[i]? = some ⟨e, .reading c stage⟩ →
    e.asks? = some p → ∀ turns, stage.left < (turns.filterMap Turn.caller?).count i →
      ∃ d, (y.run b turns).pipeline.metadata.get? p = some d

theorem Agreed.describesOnce (h : y.Agreed) (b : Blueprint φ β) : y.DescribesOnce b where
  once := h.begun_nodup
  begun p d hd := (h.begun_iff _).2 ⟨.full d, (h.full_iff _ d).2 hd, by simp⟩
  answered := h.answered
  described x p hx hp := h.symbols.of_defines hx p hp
  prompt i e c p d hi asks hd := by
    obtain ⟨key, content, hcell, hcontent⟩ := h.toSound.cell_of_waiting asks hi
    rw [(h.full_iff _ d).2 hd] at hcontent
    obtain rfl := Option.some.inj hcontent
    rw [step_advance hi]
    simp only [Session.advance, asks, ask, hcell]
  waits i e c p hi asks hnone := by
    obtain ⟨key, content, hcell, hcontent⟩ := h.toSound.cell_of_waiting asks hi
    cases content with
    | empty =>
      right
      rw [step_advance hi]
      simp only [Session.advance, asks, ask, hcell]
    | busy j => exact Or.inl ⟨j, (h.busy_iff _ j).1 hcontent⟩
    | full d =>
      rw [MetadataCache.get?, (h.full_iff _ d).1 hcontent] at hnone
      cases hnone
  reads i e c stage p hi asks turns enough := h.filled_run asks hi enough

/-- What is known of an origin at one moment is known of it at a later one. -/
structure SharesWith (y z : Session φ β) : Prop where
  /-- A kept descriptor stays. -/
  kept : y.pipeline.metadata.KeptBy z.pipeline.metadata
  /-- Whoever asks later for a location with the same components gets the same answer. -/
  answers : ∀ p d q d', (p, d) ∈ y.answers → (q, d') ∈ z.answers →
    q.components = p.components → d' = d
  /-- Symbols from origins whose locations have the same components have the same descriptors and
  the same signers, whichever loaders defined them and when. -/
  symbols : ∀ x x' p q, y.Defines x → z.Defines x' → x.codeSource = some p →
    x'.codeSource = some q → q.components = p.components →
      x'.descriptor = x.descriptor ∧ x'.descriptor.signers = x.descriptor.signers

/-- In every run, however the steps of the callers mix with each other, with tasks that come in and
with changes of the files, every descriptor is read once and shared from then on. -/
theorem describesOnce_run (b : Blueprint φ β) (t : FileTree) (f : φ) (g : β)
    (turns : List Turn) :
    let y := (start b t f g).run b turns
    y.DescribesOnce b ∧
      (∀ i caller, y.callers[i]? = some caller → y.Moves b i caller (y.step b (.advance i))) ∧
      ∀ later, y.SharesWith (y.run b later) := by
  intro y
  have hy : y.Agreed := ((agreed_start b t f g).run turns).1
  refine ⟨hy.describesOnce b, fun i caller hi => ?_, fun later => ?_⟩
  · rw [step_advance hi]
    exact moves_advance b y i caller
  · obtain ⟨hz, hkept⟩ := hy.run (b := b) later
    have hsame {p q : Path} {d d' : Descriptor} (hpq : q.components = p.components)
        (hd : y.pipeline.metadata.get? p = some d)
        (hd' : (y.run b later).pipeline.metadata.get? q = some d') : d' = d := by
      have hlater := hkept p d hd
      rw [MetadataCache.get?] at hlater hd'
      rw [hpq, hlater] at hd'
      exact (Option.some.inj hd').symm
    refine ⟨hkept, fun p d q d' hp hq hpq => ?_, fun x x' p q hx hx' hp hq hpq => ?_⟩
    · exact hsame hpq (hy.answered p d hp) (hz.answered q d' hq)
    · have hd := hsame hpq (hy.symbols.of_defines hx p hp) (hz.symbols.of_defines hx' q hq)
      exact ⟨hd, congrArg Descriptor.signers hd⟩

/-- Two callers ask for one directory by two paths. Its descriptor file is gone by the time that the
second one goes on, which waits for the first one's reading all the same. -/
example :
    let b : Blueprint Memory Unit := ⟨{}, Memory.loader, BootstrapLoader.none⟩
    let file : FileTree := ⟨[(["d"], .directory), (["d", "META-INF"], .directory),
      (["d", "META-INF", "MANIFEST.MF"], .file "Entry-Symbol: m\n".toUTF8)], []⟩
    let turns : List Turn :=
      [.task (.request (.descriptor ⟨"/d"⟩)), .task (.request (.descriptor ⟨"/d/"⟩)), .advance 1,
        .advance 1, .advance 1, .advance 1, .advance 0, .advance 0, .advance 1, .files ⟨[], []⟩,
        .advance 0, .advance 1, .advance 0, .advance 1]
    let y := (start b file Memory.empty ()).run b turns
    y.answers = [(⟨"/d"⟩, ⟨⟨[("Entry-Symbol", "m")]⟩, []⟩),
      (⟨"/d/"⟩, ⟨⟨[("Entry-Symbol", "m")]⟩, []⟩)] ∧ y.begun = [Path.components ⟨"/d"⟩] := by
  decide +kernel

end Overlay.Session
