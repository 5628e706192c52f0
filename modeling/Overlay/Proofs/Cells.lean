import Overlay.Proofs.Described
import Overlay.Proofs.Session

/-!
# One cell for every origin

Locations with the same components have one cell, and a cell is filled once: it is empty, then busy
with the one caller that reads the descriptor, then full for good. The full cells hold the
descriptors that are kept, and those whose reading was begun are the ones that are not empty.
-/

namespace Overlay

variable {φ β : Type}

/-- The location whose descriptor a caller is reading. -/
def Caller.reads? (caller : Caller) : Option PathKey :=
  match caller.asking with
  | .reading _ _ => caller.errand.asks?.map Path.components
  | _ => none

namespace Session

/-- The table of cells leads to the cell of each location. -/
structure Indexed (y : Session φ β) : Prop where
  /-- The table leads from a location to a cell that was made for it. -/
  named : ∀ key c, y.cellTable.get? key = some c → ∃ k, y.cells[c]? = some k ∧ k.key = key
  /-- The table leads to every cell. -/
  listed : ∀ (c : Nat) k, y.cells[c]? = some k → y.cellTable.get? k.key = some c

/-- What is in the cell of a location. -/
def contentOf? (y : Session φ β) (key : PathKey) : Option Content :=
  (y.cellTable.get? key).bind fun c => (y.cells[c]?).map Cell.content

/-- The location whose descriptor a caller is reading. -/
def readBy? (y : Session φ β) (i : Nat) : Option PathKey := (y.callers[i]?).bind Caller.reads?

variable {b : Blueprint φ β} {y y' : Session φ β} {i j c : Nat} {e : Errand} {a : Asking}
  {caller : Caller} {key : PathKey} {k : Cell}

theorem contentOf?_of_table (h : y.cellTable.get? key = some c) :
    y.contentOf? key = (y.cells[c]?).map Cell.content := by
  rw [contentOf?, h, Option.bind_some]

theorem Indexed.congr (h : y.Indexed) (ht : y'.cellTable = y.cellTable)
    (hc : y'.cells = y.cells) : y'.Indexed where
  named := by
    rw [ht, hc]
    exact h.named
  listed := by
    rw [ht, hc]
    exact h.listed

/-- A new cell leaves the others where they are. -/
theorem cells_makeCell {k : Cell} (h : y.cells[c]? = some k) (key : PathKey) :
    (y.makeCell key).cells[c]? = some k := getElem?_append_of_some h _

/-- A cell may be made for a location that has none. -/
theorem Indexed.makeCell (h : y.Indexed) (absent : y.cellTable.get? key = none) :
    (y.makeCell key).Indexed := by
  refine ⟨fun other c hc => ?_, fun c k hk => ?_⟩
  · change (y.cellTable.insert key y.cells.length).get? other = some c at hc
    rw [Table.get?_insert] at hc
    split at hc
    · rename_i hother
      obtain rfl := Option.some.inj hc
      exact ⟨⟨key, .empty⟩, List.getElem?_concat_length, hother.symm⟩
    · obtain ⟨k, hk, hkey⟩ := h.named other c hc
      exact ⟨k, cells_makeCell hk key, hkey⟩
  · change (y.cellTable.insert key y.cells.length).get? k.key = some c
    change (y.cells ++ [⟨key, .empty⟩])[c]? = some k at hk
    rcases of_getElem?_concat hk with hk | ⟨rfl, rfl⟩
    · have hlisted := h.listed c k hk
      have hne : k.key ≠ key := by
        intro he
        rw [he, absent] at hlisted
        cases hlisted
      rw [Table.get?_insert_of_ne _ hne, hlisted]
    · exact Table.get?_insert_self ..

theorem Indexed.contentOf?_makeCell (h : y.Indexed) (key other : PathKey) :
    (y.makeCell key).contentOf? other =
      if other = key then some .empty else y.contentOf? other := by
  change ((y.cellTable.insert key y.cells.length).get? other).bind _ = _
  rw [Table.get?_insert]
  split
  · exact congrArg (Option.map Cell.content) List.getElem?_concat_length
  · cases hc : y.cellTable.get? other with
    | none => rw [contentOf?, hc]; rfl
    | some c =>
      obtain ⟨k, hk, -⟩ := h.named other c hc
      rw [contentOf?_of_table hc, hk, Option.bind_some, cells_makeCell hk]

/-- Every cell but the one that changes is as it was. -/
theorem cells_setContent (y : Session φ β) (c c' : Nat) (content : Content) :
    (y.setContent c content).cells[c']? =
      (y.cells[c']?).map fun k => if c = c' then { k with content } else k := by
  change (y.cells.modify c fun k => { k with content })[c']? = _
  rw [List.getElem?_modify]
  rfl

/-- What is in a cell may change. -/
theorem Indexed.setContent (h : y.Indexed) (c : Nat) (content : Content) :
    (y.setContent c content).Indexed := by
  refine ⟨fun key c' hc => ?_, fun c' k hk => ?_⟩
  · obtain ⟨k, hk, hkey⟩ := h.named key c' hc
    refine ⟨_, by rw [cells_setContent, hk, Option.map_some], ?_⟩
    split <;> exact hkey
  · rw [cells_setContent, Option.map_eq_some_iff] at hk
    obtain ⟨k', hk', rfl⟩ := hk
    have hlisted := h.listed c' k' hk'
    split <;> exact hlisted

theorem Indexed.contentOf?_setContent (h : y.Indexed) (hc : y.cellTable.get? key = some c)
    (content : Content) (other : PathKey) :
    (y.setContent c content).contentOf? other =
      if other = key then some content else y.contentOf? other := by
  cases hother : y.cellTable.get? other with
  | none =>
    have hne : other ≠ key := by
      rintro rfl
      rw [hc] at hother
      cases hother
    rw [if_neg hne]
    simp only [contentOf?, Session.setContent, hother, Option.bind_none]
  | some c' =>
    obtain ⟨k, hk, hkey⟩ := h.named other c' hother
    have hcontent : (y.setContent c content).contentOf? other =
        some (if c = c' then content else k.content) := by
      rw [contentOf?_of_table (y := y.setContent c content) hother, cells_setContent, hk,
        Option.map_some, Option.map_some]
      split <;> rfl
    rw [hcontent, contentOf?_of_table hother, hk, Option.map_some]
    by_cases hsame : other = key
    · have hcell : c = c' := by
        rw [hsame, hc] at hother
        exact Option.some.inj hother
      rw [if_pos hsame, if_pos hcell]
    · have hcell : c ≠ c' := by
        rintro rfl
        obtain ⟨k', hk', hkey'⟩ := h.named key c hc
        rw [hk] at hk'
        obtain rfl := Option.some.inj hk'
        exact hsame (hkey.symm.trans hkey')
      rw [if_neg hsame, if_neg hcell]

theorem readBy?_moveTo (h : y.callers[i]? = some caller) (e : Errand) (a : Asking) (j : Nat) :
    (y.moveTo i e a).readBy? j = if j = i then Caller.reads? ⟨e, a⟩ else y.readBy? j := by
  unfold readBy?
  split
  · rename_i hji
    rw [hji, caller_moveTo_self h, Option.bind_some]
  · rename_i hji
    rw [caller_moveTo_of_ne hji]

/-- Cells, callers and kept descriptors agree. -/
structure Sound (y : Session φ β) : Prop extends y.Indexed where
  /-- A caller with a cell needs a descriptor, and has the cell of its origin. -/
  obtained : ∀ (i : Nat) (caller : Caller) c, y.callers[i]? = some caller →
    caller.asking.cell? = some c →
    ∃ p, caller.errand.asks? = some p ∧ y.cellTable.get? p.components = some c
  /-- A cell is busy with the caller that reads its descriptor. -/
  busy_iff : ∀ key i, y.contentOf? key = some (.busy i) ↔ y.readBy? i = some key
  /-- The full cells hold the kept descriptors. -/
  full_iff : ∀ key d, y.contentOf? key = some (.full d) ↔
    y.pipeline.metadata.descriptors.get? key = some d
  /-- The cells that are not empty are those of the descriptors whose reading was begun. -/
  begun_iff : ∀ key, key ∈ y.begun ↔ ∃ content, y.contentOf? key = some content ∧ content ≠ .empty
  /-- No reading was begun twice. -/
  begun_nodup : y.begun.Nodup

theorem sound_start (b : Blueprint φ β) (t : FileTree) (f : φ) (g : β) :
    (start b t f g).Sound where
  named key c h := by cases h
  listed c k h := by cases h
  obtained i caller c h := by cases h
  busy_iff key i := by simp [start, contentOf?, readBy?]
  full_iff key d := by
    simp [start, contentOf?, Ensemble.start, World.start, Pipeline.ofBlueprint,
      MetadataCache.ofConfig]
  begun_iff key := by simp [start, contentOf?]
  begun_nodup := List.nodup_nil

/-- Only cells, callers and descriptors matter. -/
theorem Sound.congr (h : y.Sound) (ht : y'.cellTable = y.cellTable) (hc : y'.cells = y.cells)
    (hcallers : y'.callers = y.callers) (hb : y'.begun = y.begun)
    (hm : y'.pipeline.metadata = y.pipeline.metadata) : y'.Sound := by
  have hcontent (key : PathKey) : y'.contentOf? key = y.contentOf? key := by
    rw [contentOf?, contentOf?, ht, hc]
  have hread (i : Nat) : y'.readBy? i = y.readBy? i := by
    rw [readBy?, readBy?, hcallers]
  refine ⟨h.toIndexed.congr ht hc, ?_, ?_, ?_, ?_, ?_⟩
  · rw [ht, hcallers]
    exact h.obtained
  · simpa only [hcontent, hread] using h.busy_iff
  · simpa only [hcontent, hm] using h.full_iff
  · simpa only [hcontent, hb] using h.begun_iff
  · rw [hb]
    exact h.begun_nodup

/-- The cell that a caller has is that of the origin it asks for. -/
theorem Sound.table_of_cell (h : y.Sound) {p : Path} (asks : e.asks? = some p)
    (hi : y.callers[i]? = some ⟨e, a⟩) (hc : a.cell? = some c) :
    y.cellTable.get? p.components = some c := by
  obtain ⟨q, hq, htable⟩ := h.obtained i _ c hi hc
  obtain rfl : p = q := Option.some.inj (asks.symm.trans hq)
  exact htable

/-- A caller may move to where it has the cell of the origin it asks for. -/
theorem Sound.obtained_moveTo (h : y.Sound)
    (hcell : ∀ c, a.cell? = some c →
      ∃ p, e.asks? = some p ∧ y.cellTable.get? p.components = some c)
    (hj : (y.moveTo i e a).callers[j]? = some caller) (hc : caller.asking.cell? = some c) :
    ∃ p, caller.errand.asks? = some p ∧ y.cellTable.get? p.components = some c := by
  rcases caller_moveTo hj with ⟨-, rfl⟩ | ⟨-, hj⟩
  · exact hcell c hc
  · exact h.obtained j caller c hj hc

/-- A caller may move without beginning or ending to read. -/
theorem Sound.moveTo (h : y.Sound) (hi : y.callers[i]? = some caller)
    (hreads : Caller.reads? ⟨e, a⟩ = caller.reads?)
    (hcell : ∀ c, a.cell? = some c →
      ∃ p, e.asks? = some p ∧ y.cellTable.get? p.components = some c) :
    (y.moveTo i e a).Sound := by
  have hread (j : Nat) : (y.moveTo i e a).readBy? j = y.readBy? j := by
    rw [readBy?_moveTo hi]
    split
    · rename_i hji
      rw [hreads, hji, readBy?, hi, Option.bind_some]
    · rfl
  refine ⟨h.toIndexed.congr rfl rfl, fun j caller' c hj hc => h.obtained_moveTo hcell hj hc,
    fun key j => ?_, h.full_iff, h.begun_iff, h.begun_nodup⟩
  rw [hread]
  exact h.busy_iff key j

/-- What is in the cell of one location may change, if the callers that read, the kept descriptors
and the log change with it. -/
theorem Sound.change (h : y.Sound) (key : PathKey) (content : Content) (hindexed : y'.Indexed)
    (hobtained : ∀ (i : Nat) (caller : Caller) c, y'.callers[i]? = some caller →
      caller.asking.cell? = some c →
      ∃ p, caller.errand.asks? = some p ∧ y'.cellTable.get? p.components = some c)
    (hcontent : ∀ other, y'.contentOf? other =
      if other = key then some content else y.contentOf? other)
    (hbusy : ∀ other i, y'.readBy? i = some other ↔
      if other = key then content = .busy i else y.readBy? i = some other)
    (hfull : ∀ other d, y'.pipeline.metadata.descriptors.get? other = some d ↔
      if other = key then content = .full d
      else y.pipeline.metadata.descriptors.get? other = some d)
    (hbegun : ∀ other, other ∈ y'.begun ↔
      if other = key then content ≠ .empty else other ∈ y.begun)
    (hnodup : y'.begun.Nodup) : y'.Sound := by
  refine ⟨hindexed, hobtained, fun other i => ?_, fun other d => ?_, fun other => ?_, hnodup⟩
  · rw [hcontent, hbusy]
    split
    · simp
    · exact h.busy_iff other i
  · rw [hcontent, hfull]
    split
    · simp
    · exact h.full_iff other d
  · rw [hcontent, hbegun]
    split
    · simp
    · exact h.begun_iff other

/-- A location whose cell is not full has no kept descriptor. -/
theorem Sound.unkept (h : y.Sound) (hc : ∀ d, y.contentOf? key ≠ some (.full d)) (d : Descriptor) :
    y.pipeline.metadata.descriptors.get? key ≠ some d := by
  rw [Ne, ← h.full_iff]
  exact hc d

/-- A location whose cell is not busy has no reader. -/
theorem Sound.unread (h : y.Sound) (hc : ∀ i, y.contentOf? key ≠ some (.busy i)) (i : Nat) :
    y.readBy? i ≠ some key := by
  rw [Ne, ← h.busy_iff]
  exact hc i

/-- At most one caller reads the descriptor of a location. -/
theorem Sound.exclusive (h : y.Sound) (hi : y.readBy? i = some key)
    (hj : y.readBy? j = some key) : i = j := by
  have hbusy := (h.busy_iff key i).2 hi
  rw [(h.busy_iff key j).2 hj] at hbusy
  exact (Content.busy.inj (Option.some.inj hbusy)).symm

/-- A cell may be made for a location that has none. -/
theorem Sound.makeCell (h : y.Sound) (absent : y.cellTable.get? key = none) :
    (y.makeCell key).Sound := by
  have hold : y.contentOf? key = none := by rw [contentOf?, absent, Option.bind_none]
  apply h.change key .empty
  case hindexed => exact h.toIndexed.makeCell absent
  case hcontent => exact h.toIndexed.contentOf?_makeCell key
  case hnodup => exact h.begun_nodup
  case hobtained =>
    intro i caller c hi hc
    obtain ⟨p, hp, htable⟩ := h.obtained i caller c hi hc
    refine ⟨p, hp, ?_⟩
    have hne : p.components ≠ key := by
      intro he
      rw [he, absent] at htable
      cases htable
    exact (Table.get?_insert_of_ne _ hne _).trans htable
  case hbusy =>
    intro other i
    change y.readBy? i = _ ↔ _
    split
    · rename_i ho
      simpa [ho] using h.unread (by simp [hold]) i
    · rfl
  case hfull =>
    intro other d
    change y.pipeline.metadata.descriptors.get? other = _ ↔ _
    split
    · rename_i ho
      simpa [ho] using h.unkept (by simp [hold]) d
    · rfl
  case hbegun =>
    intro other
    split
    · rename_i ho
      change other ∈ y.begun ↔ _
      rw [h.begun_iff, ho, hold]
      simp
    · rfl

/-- A caller may begin to read for the empty cell that it has. -/
theorem Sound.begins (h : y.Sound) {p : Path} (asks : e.asks? = some p)
    (hi : y.callers[i]? = some ⟨e, .waiting c⟩) (empty : y.cells[c]? = some ⟨key, .empty⟩) :
    ((y.beginReading i c p).moveTo i e (.reading c .start)).Sound := by
  have htable := h.table_of_cell asks hi rfl
  have hempty : y.contentOf? p.components = some .empty := by
    rw [contentOf?_of_table htable, empty, Option.map_some]
  have hunread : ∀ j, y.readBy? j ≠ some p.components := h.unread (by simp [hempty])
  apply h.change p.components (.busy i)
  case hindexed => exact (h.toIndexed.setContent c (.busy i)).congr rfl rfl
  case hcontent => exact h.toIndexed.contentOf?_setContent htable (.busy i)
  case hobtained =>
    intro j caller c' hj hc'
    refine h.obtained_moveTo (fun c'' hc'' => ?_) hj hc'
    obtain rfl := Option.some.inj hc''
    exact ⟨p, asks, htable⟩
  case hbusy =>
    intro other j
    have hreads : Caller.reads? ⟨e, .reading c .start⟩ = some p.components :=
      congrArg (Option.map Path.components) asks
    have hidle : y.readBy? i = none := by rw [readBy?, hi]; rfl
    rw [readBy?_moveTo (y := y.beginReading i c p) hi, hreads]
    change (if j = i then _ else y.readBy? j) = _ ↔ _
    by_cases hji : j = i
    · simp [hji, hidle, eq_comm]
    · by_cases ho : other = p.components
      · simpa [hji, ho, Ne.symm hji] using hunread j
      · simp [hji, ho]
  case hfull =>
    intro other d
    change y.pipeline.metadata.descriptors.get? other = _ ↔ _
    split
    · rename_i ho
      simpa [ho] using h.unkept (by simp [hempty]) d
    · rfl
  case hbegun =>
    intro other
    change other ∈ y.begun ++ [p.components] ↔ _
    split <;> simp [*]
  case hnodup =>
    change (y.begun ++ [p.components]).Nodup
    have hnew : p.components ∉ y.begun := by
      rw [h.begun_iff, hempty]
      simp
    rw [← List.concat_eq_append]
    exact h.begun_nodup.concat hnew

/-- A cell that a caller reads for is busy with it, and no descriptor is kept for its location. -/
theorem Sound.busy_of_reading (h : y.Sound) {p : Path} (asks : e.asks? = some p)
    {stage : ReadingStage} (hi : y.callers[i]? = some ⟨e, .reading c stage⟩) :
    y.contentOf? p.components = some (.busy i) ∧ y.pipeline.metadata.get? p = none := by
  have hbusy : y.contentOf? p.components = some (.busy i) := by
    rw [h.busy_iff, readBy?, hi]
    exact congrArg (Option.map Path.components) asks
  exact ⟨hbusy, Option.eq_none_iff_forall_ne_some.2 (h.unkept (by simp [hbusy]))⟩

/-- A caller may fill the cell that it has read for. -/
theorem Sound.fills (h : y.Sound) {p : Path} (asks : e.asks? = some p)
    {result : Except IoError Descriptor}
    (hi : y.callers[i]? = some ⟨e, .reading c (.ended result)⟩) :
    ((y.fill c p result).moveTo i e (.waiting c)).Sound := by
  have htable := h.table_of_cell asks hi rfl
  have hold := (h.busy_of_reading asks hi).1
  have hmine : y.readBy? i = some p.components := (h.busy_iff _ i).1 hold
  apply h.change p.components (.full (MetadataCache.readAs result))
  case hindexed => exact (h.toIndexed.setContent c _).congr rfl rfl
  case hcontent => exact h.toIndexed.contentOf?_setContent htable _
  case hnodup => exact h.begun_nodup
  case hobtained =>
    intro j caller c' hj hc'
    refine h.obtained_moveTo (fun c'' hc'' => ?_) hj hc'
    obtain rfl := Option.some.inj hc''
    exact ⟨p, asks, htable⟩
  case hbusy =>
    intro other j
    rw [readBy?_moveTo (y := y.fill c p result) hi]
    change (if j = i then none else y.readBy? j) = _ ↔ _
    by_cases hji : j = i
    · simp [hji, hmine, eq_comm]
    · by_cases ho : other = p.components
      · have hother : y.readBy? j ≠ some p.components := fun hj => hji (h.exclusive hj hmine)
        simpa [hji, ho] using hother
      · simp [hji, ho]
  case hfull =>
    intro other d
    change (y.pipeline.keepRead p result).metadata.descriptors.get? other = _ ↔ _
    rw [Pipeline.metadata_keepRead, MetadataCache.keep, Table.get?_insert]
    split <;> simp
  case hbegun =>
    intro other
    split
    · rename_i ho
      change other ∈ y.begun ↔ _
      rw [h.begun_iff, ho, hold]
      simp
    · rfl

/-- Every step of a caller keeps cells, callers and descriptors in agreement. -/
theorem Sound.advance (h : y.Sound) (hy : y.toEnsemble.Described)
    (he : ∀ (i : Nat) (caller : Caller), y.callers[i]? = some caller →
      caller.errand.Described y.pipeline.metadata)
    (hi : y.callers[i]? = some caller) : (y.advance b i caller).Sound := by
  have hm := moves_advance b y i caller
  generalize y.advance b i caller = z at hm ⊢
  cases hm with
  | @works e a asks =>
    have hleaves := Errand.Described.proceed (he i _ hi) hy asks b
    have hworked : (y.work b e).Sound := h.congr rfl rfl rfl rfl hleaves.metadata
    refine hworked.moveTo hi ?_ (fun c hc => by cases hc)
    cases a <;> simp [Caller.reads?, asks]
  | @finds e p c asks found =>
    refine h.moveTo hi rfl fun c' hc' => ?_
    obtain rfl := Option.some.inj hc'
    exact ⟨p, asks, found⟩
  | @makes e p asks absent =>
    refine (h.makeCell absent).moveTo hi rfl fun c' hc' => ?_
    obtain rfl := Option.some.inj hc'
    exact ⟨p, asks, Table.get?_insert_self ..⟩
  | @takes e p c key d asks full =>
    have hanswered : (y.answered p d).Sound := h.congr rfl rfl rfl rfl rfl
    exact hanswered.moveTo hi rfl fun c' hc' => by cases hc'
  | begins asks empty => exact h.begins asks hi empty
  | reads asks unfinished => exact h.moveTo hi rfl fun c' hc' => h.obtained i _ c' hi hc'
  | fills asks => exact h.fills asks hi
  | waits asks busy => exact h

/-- Callers may arrive. -/
theorem Sound.receive (h : y.Sound) (hy : y.toEnsemble.Described) (k : HostTask) :
    (y.receive b k).Sound := by
  by_cases hk : k.errands y.toEnsemble = []
  · rw [receive_of_nil hk]
    exact h.congr rfl rfl rfl rfl (k.described_run hk hy b).1
  · have hobtained (j : Nat) (caller : Caller) (c : Nat)
        (hj : (y.receive b k).callers[j]? = some caller) (hc : caller.asking.cell? = some c) :
        ∃ p, caller.errand.asks? = some p ∧ y.cellTable.get? p.components = some c := by
      rcases caller_receive hj with hj | ⟨hidle, -⟩
      · exact h.obtained j caller c hj hc
      · rw [hidle] at hc
        cases hc
    have hread (j : Nat) : (y.receive b k).readBy? j = y.readBy? j := by
      rw [receive_of_ne_nil hk, readBy?, readBy?, List.getElem?_append]
      split
      · rfl
      · rename_i hj
        rw [List.getElem?_eq_none (Nat.le_of_not_lt hj), List.getElem?_map]
        cases (k.errands y.toEnsemble)[j - y.callers.length]? <;> rfl
    rw [receive_of_ne_nil hk] at hobtained hread ⊢
    refine ⟨h.toIndexed.congr rfl rfl, hobtained, fun key j => ?_, h.full_iff, h.begun_iff,
      h.begun_nodup⟩
    rw [hread]
    exact h.busy_iff key j

end Session

end Overlay
