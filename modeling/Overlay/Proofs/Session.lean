import Overlay.Proofs.Errands
import Overlay.Proofs.Reading
import Overlay.Proofs.Slots

/-!
# Callers at the same time

Any number of callers may work on a pipeline and its module loaders at once, each on an errand of
its own. A caller that needs the descriptor of an origin gets the origin's cell, which is made if
there is none. If the cell is empty it reads the descriptor and fills the cell, if the cell is busy
it waits for the caller that is reading, and if the cell is full it goes on with what is in it.
Between any two of its steps other callers move on, tasks come in and files change. The locks of
symbols' names are left out, for they only rule some of these runs out.
-/

namespace Overlay

/-- What is in a cell. -/
inductive Content where
  /-- Nothing yet. -/
  | empty
  /-- Nothing yet, but a caller is reading the descriptor. -/
  | busy (reader : Nat)
  /-- The descriptor. -/
  | full (descriptor : Descriptor)

/-- A cell for the descriptor of an origin. -/
structure Cell where
  /-- The components of the location that it was made for. -/
  key : PathKey
  /-- What is in it. -/
  content : Content

/-- Where a caller stands that needs a descriptor. -/
inductive Asking where
  /-- It has no cell. -/
  | idle
  /-- It has a cell and waits for what comes into it. -/
  | waiting (cell : Nat)
  /-- It reads the descriptor for its cell. -/
  | reading (cell : Nat) (stage : ReadingStage)

/-- The cell that a caller has. -/
def Asking.cell? : Asking → Option Nat
  | idle => none
  | waiting c => some c
  | reading c _ => some c

/-- A caller. -/
structure Caller where
  /-- What it is about. -/
  errand : Errand
  /-- Where it stands, if the errand needs a descriptor. -/
  asking : Asking

/-- A pipeline with its module loaders, the cells of the origins and all callers that there ever
were. -/
structure Session (φ β : Type) extends Ensemble φ β where
  /-- The table of cells: for each location the position of its cell. -/
  cellTable : Table PathKey Nat
  /-- All cells ever made. -/
  cells : List Cell
  /-- The callers, in order of arrival. -/
  callers : List Caller
  /-- The locations whose descriptor a caller has begun to read, oldest first. -/
  begun : List PathKey
  /-- The descriptors that callers have got, with the locations they asked for, oldest first. -/
  answers : List (Path × Descriptor)

/-- What happens next in a session. -/
inductive Turn where
  /-- A task comes in. One that asks for no descriptor is carried out. -/
  | task (k : HostTask)
  /-- A caller takes its next step, if it can. -/
  | advance (i : Nat)
  /-- The files change. -/
  | files (t : FileTree)

/-- The caller that takes a step. -/
def Turn.caller? : Turn → Option Nat
  | advance i => some i
  | _ => none

/-- Only a caller's own steps count as its steps. -/
theorem Turn.count_of_ne {turn : Turn} {i : Nat} (h : turn ≠ .advance i) (turns : List Turn) :
    ((turn :: turns).filterMap caller?).count i = (turns.filterMap caller?).count i := by
  cases turn with
  | advance j =>
    have hij : j ≠ i := by
      rintro rfl
      exact h rfl
    simp [caller?, List.count_cons_of_ne hij]
  | task k | files t => rfl

variable {φ β : Type}

namespace Session

/-- A new pipeline without module loaders and callers. -/
def start (b : Blueprint φ β) (t : FileTree) (fallback : φ) (bootstrap : β) : Session φ β where
  toEnsemble := Ensemble.start b t fallback bootstrap
  cellTable := Table.empty
  cells := []
  callers := []
  begun := []
  answers := []

/-- Put a caller somewhere else. -/
def moveTo (y : Session φ β) (i : Nat) (e : Errand) (a : Asking) : Session φ β :=
  { y with callers := y.callers.set i ⟨e, a⟩ }

/-- Make an empty cell for a location. -/
def makeCell (y : Session φ β) (key : PathKey) : Session φ β :=
  { y with
    cellTable := y.cellTable.insert key y.cells.length
    cells := y.cells ++ [⟨key, .empty⟩] }

/-- Change what is in a cell. -/
def setContent (y : Session φ β) (c : Nat) (content : Content) : Session φ β :=
  { y with cells := y.cells.modify c fun k => { k with content } }

/-- Let a caller read the descriptor for an empty cell. -/
def beginReading (y : Session φ β) (i c : Nat) (p : Path) : Session φ β :=
  { y.setContent c (.busy i) with begun := y.begun ++ [p.components] }

/-- Fill a cell with what was read, and keep it. -/
def fill (y : Session φ β) (c : Nat) (p : Path) (result : Except IoError Descriptor) :
    Session φ β :=
  { y.setContent c (.full (MetadataCache.readAs result)) with
    pipeline := y.pipeline.keepRead p result }

/-- Note an answer. -/
def answered (y : Session φ β) (p : Path) (d : Descriptor) : Session φ β :=
  { y with answers := y.answers ++ [(p, d)] }

/-- Let a caller take a step towards the descriptor that it needs. It stays where it is while its
cell is busy with another caller. -/
def ask (y : Session φ β) (i : Nat) (e : Errand) (p : Path) : Asking → Session φ β
  | .idle =>
    match y.cellTable.get? p.components with
    | some c => y.moveTo i e (.waiting c)
    | none => (y.makeCell p.components).moveTo i e (.waiting y.cells.length)
  | .waiting c =>
    match y.cells[c]? with
    | some ⟨_, .full d⟩ => (y.answered p d).moveTo i (e.resume d) .idle
    | some ⟨_, .empty⟩ => (y.beginReading i c p).moveTo i e (.reading c .start)
    | _ => y
  | .reading c (.ended result) => (y.fill c p result).moveTo i e (.waiting c)
  | .reading c stage =>
    y.moveTo i e
      (.reading c (stage.next y.tree y.pipeline.metadata y.pipeline.lookups.archives p))

/-- Carry out a step of an errand that needs no descriptor. -/
def work (b : Blueprint φ β) (y : Session φ β) (e : Errand) : Session φ β :=
  { y with toEnsemble := (e.proceed b y.toEnsemble).2 }

/-- Let a caller take its next step. -/
def advance (b : Blueprint φ β) (y : Session φ β) (i : Nat) (caller : Caller) : Session φ β :=
  match caller.errand.asks? with
  | some p => y.ask i caller.errand p caller.asking
  | none =>
    (y.work b caller.errand).moveTo i (caller.errand.proceed b y.toEnsemble).1 .idle

/-- Let a task come in. -/
def receive (b : Blueprint φ β) (y : Session φ β) (k : HostTask) : Session φ β :=
  match k.errands y.toEnsemble with
  | [] => { y with toEnsemble := (k.run b y.toEnsemble).2 }
  | es => { y with callers := y.callers ++ es.map fun e => ⟨e, .idle⟩ }

/-- Let one thing happen. -/
def step (b : Blueprint φ β) (y : Session φ β) : Turn → Session φ β
  | .task k => y.receive b k
  | .advance i =>
    match y.callers[i]? with
    | some caller => y.advance b i caller
    | none => y
  | .files t => { y with tree := t }

/-- Let things happen in turn. -/
def run (b : Blueprint φ β) (y : Session φ β) (turns : List Turn) : Session φ β :=
  turns.foldl (step b) y

/-- What the next step of a caller can do. -/
inductive Moves (b : Blueprint φ β) (y : Session φ β) (i : Nat) : Caller → Session φ β → Prop
  /-- It needs no descriptor and carries out a step of its errand. -/
  | works {e : Errand} {a : Asking} (asks : e.asks? = none) :
      Moves b y i ⟨e, a⟩ ((y.work b e).moveTo i (e.proceed b y.toEnsemble).1 .idle)
  /-- It finds the cell of the origin. -/
  | finds {e : Errand} {p : Path} {c : Nat} (asks : e.asks? = some p)
      (found : y.cellTable.get? p.components = some c) :
      Moves b y i ⟨e, .idle⟩ (y.moveTo i e (.waiting c))
  /-- It makes the cell of the origin. -/
  | makes {e : Errand} {p : Path} (asks : e.asks? = some p)
      (absent : y.cellTable.get? p.components = none) :
      Moves b y i ⟨e, .idle⟩ ((y.makeCell p.components).moveTo i e (.waiting y.cells.length))
  /-- It goes on with the descriptor in its cell. -/
  | takes {e : Errand} {p : Path} {c : Nat} {key : PathKey} {d : Descriptor}
      (asks : e.asks? = some p) (full : y.cells[c]? = some ⟨key, .full d⟩) :
      Moves b y i ⟨e, .waiting c⟩ ((y.answered p d).moveTo i (e.resume d) .idle)
  /-- It begins to read the descriptor. -/
  | begins {e : Errand} {p : Path} {c : Nat} {key : PathKey} (asks : e.asks? = some p)
      (empty : y.cells[c]? = some ⟨key, .empty⟩) :
      Moves b y i ⟨e, .waiting c⟩ ((y.beginReading i c p).moveTo i e (.reading c .start))
  /-- It goes on reading. -/
  | reads {e : Errand} {p : Path} {c : Nat} {stage : ReadingStage} (asks : e.asks? = some p)
      (unfinished : stage.left ≠ 0) :
      Moves b y i ⟨e, .reading c stage⟩ (y.moveTo i e
        (.reading c (stage.next y.tree y.pipeline.metadata y.pipeline.lookups.archives p)))
  /-- It fills its cell with what it has read. -/
  | fills {e : Errand} {p : Path} {c : Nat} {result : Except IoError Descriptor}
      (asks : e.asks? = some p) :
      Moves b y i ⟨e, .reading c (.ended result)⟩ ((y.fill c p result).moveTo i e (.waiting c))
  /-- It waits for the caller that fills its cell. -/
  | waits {e : Errand} {p : Path} {c : Nat} (asks : e.asks? = some p)
      (busy : ∀ k, y.cells[c]? = some k → ∃ j, k.content = .busy j) :
      Moves b y i ⟨e, .waiting c⟩ y

variable {b : Blueprint φ β} {y : Session φ β} {i j : Nat} {e : Errand} {a : Asking}
  {caller : Caller}

theorem step_advance (h : y.callers[i]? = some caller) :
    y.step b (.advance i) = y.advance b i caller := by
  simp only [step, h]

/-- The next step of a caller does one of these. -/
theorem moves_advance (b : Blueprint φ β) (y : Session φ β) (i : Nat) (caller : Caller) :
    y.Moves b i caller (y.advance b i caller) := by
  obtain ⟨e, a⟩ := caller
  unfold advance
  cases hasks : e.asks? with
  | none => exact .works hasks
  | some p =>
    cases a with
    | idle =>
      dsimp only [ask]
      split
      · exact .finds hasks ‹_›
      · exact .makes hasks ‹_›
    | waiting c =>
      dsimp only [ask]
      split
      · exact .takes hasks ‹_›
      · exact .begins hasks ‹_›
      · rename_i hfull hempty
        refine .waits hasks fun k hk => ?_
        obtain ⟨key, content⟩ := k
        cases content with
        | empty => exact absurd hk (hempty key)
        | busy j => exact ⟨j, rfl⟩
        | full d => exact absurd hk (hfull key d)
    | reading c stage =>
      cases stage with
      | ended result => exact .fills hasks
      | _ => exact .reads hasks (by simp [ReadingStage.left])

/-- What holds at first and is kept by everything that can happen holds after every run. -/
theorem run_induction {P : Session φ β → Prop} (h : P y)
    (hstep : ∀ y turn, P y → P (y.step b turn)) (turns : List Turn) : P (y.run b turns) :=
  List.foldlRecOn turns (step b) h fun y hy turn _ => hstep y turn hy

/-- After a move a caller is the one that moved or where it was. -/
theorem caller_moveTo (h : (y.moveTo i e a).callers[j]? = some caller) :
    j = i ∧ caller = ⟨e, a⟩ ∨ j ≠ i ∧ y.callers[j]? = some caller := by
  change (y.callers.set i ⟨e, a⟩)[j]? = some caller at h
  exact of_getElem?_set h

theorem caller_moveTo_self (h : y.callers[i]? = some caller) (e : Errand) (a : Asking) :
    (y.moveTo i e a).callers[i]? = some ⟨e, a⟩ :=
  List.getElem?_set_self (List.getElem?_eq_some_iff.1 h).1

theorem caller_moveTo_of_ne (h : j ≠ i) (e : Errand) (a : Asking) :
    (y.moveTo i e a).callers[j]? = y.callers[j]? := List.getElem?_set_ne h.symm

/-- The step of one caller leaves the others where they are. -/
theorem caller_advance_of_ne (h : j ≠ i) (b : Blueprint φ β) (y : Session φ β) (caller : Caller) :
    (y.advance b i caller).callers[j]? = y.callers[j]? := by
  have hm := moves_advance b y i caller
  generalize y.advance b i caller = z at hm ⊢
  cases hm with
  | waits => rfl
  | works | finds | makes | takes | begins | reads | fills => exact caller_moveTo_of_ne h _ _

theorem receive_of_nil {k : HostTask} (h : k.errands y.toEnsemble = []) (b : Blueprint φ β) :
    y.receive b k = { y with toEnsemble := (k.run b y.toEnsemble).2 } := by
  simp only [receive, h]

theorem receive_of_ne_nil {k : HostTask} (h : k.errands y.toEnsemble ≠ []) (b : Blueprint φ β) :
    y.receive b k =
      { y with callers := y.callers ++ (k.errands y.toEnsemble).map fun e => ⟨e, .idle⟩ } := by
  unfold receive
  split
  · exact absurd ‹_› h
  · rfl

/-- The callers that come in with a task are idle. -/
theorem caller_receive {k : HostTask} (h : (y.receive b k).callers[i]? = some caller) :
    y.callers[i]? = some caller ∨
      caller.asking = .idle ∧ caller.errand ∈ k.errands y.toEnsemble := by
  by_cases hk : k.errands y.toEnsemble = []
  · rw [receive_of_nil hk] at h
    exact Or.inl h
  · rw [receive_of_ne_nil hk, List.getElem?_append] at h
    split at h
    · exact Or.inl h
    · obtain ⟨e, he, rfl⟩ := List.mem_map.1 (List.mem_of_getElem? h)
      exact Or.inr ⟨rfl, he⟩

/-- A caller stays where it is while anything but its own step happens. -/
theorem caller_step_of_ne {turn : Turn} (h : turn ≠ .advance i) (hi : y.callers[i]? = some caller)
    (b : Blueprint φ β) : (y.step b turn).callers[i]? = some caller := by
  cases turn with
  | files t => exact hi
  | task k =>
    change (y.receive b k).callers[i]? = _
    by_cases hk : k.errands y.toEnsemble = []
    · rw [receive_of_nil hk]
      exact hi
    · rw [receive_of_ne_nil hk]
      exact getElem?_append_of_some hi _
  | advance j =>
    have hij : i ≠ j := by
      rintro rfl
      exact h rfl
    cases hj : y.callers[j]? with
    | none =>
      simp only [step, hj]
      exact hi
    | some other =>
      rw [step_advance hj]
      exact (caller_advance_of_ne hij b y other).trans hi

end Session

end Overlay
