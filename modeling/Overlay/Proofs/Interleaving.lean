import Overlay.Proofs.Loading
import Overlay.Proofs.Slots

/-!
# Interleaved requests

Many requests may be on their way at once. A request that loads a symbol, or asks whether it is
defined, first obtains the lock of the symbol's name from a table of locks, which it may have to
make; it then waits for the lock, works through the stages of a load while it holds it, and lets
it go. Between any two of its steps other requests move on, origins and transformers come in and
files change. `Stage.finished_alone` ties the stages to the load that nothing interrupts.
-/

namespace Overlay

/-- A request that works under the lock of a symbol's name. -/
inductive Job where
  /-- Load a symbol, with or without leave to define it from the fallback loader's bytes. -/
  | load (name : String) (allowed : Bool)
  /-- Ask whether a symbol is defined. -/
  | isLoaded (name : String)
  deriving DecidableEq

namespace Job

/-- The dotted name that a request is about. -/
def key : Job → String
  | load name _ => SymbolName.dotted name
  | isLoaded name => SymbolName.dotted name

/-- Whether a request may define its symbol from the fallback loader's bytes. -/
def allowed : Job → Bool
  | load _ allowed => allowed
  | isLoaded _ => false

/-- The request as one that nothing interrupts. -/
def request : Job → Request
  | load name allowed => .load name allowed
  | isLoaded name => .isLoaded name

end Job

/-- What a request under a lock ends with. -/
inductive Outcome where
  /-- The symbol that the pipeline has defined. -/
  | own (x : Symbol)
  /-- What another loader answered, or the reason why there is no symbol. -/
  | handed (result : Except LoadError Symbol)
  /-- Whether the symbol is defined. -/
  | present (result : Bool)

/-- The answer that an outcome gives. -/
def Outcome.answer : Outcome → Answer
  | own x => .symbol (.ok x)
  | handed result => .symbol result
  | present result => .isLoaded result

/-- The outcome of a request that finds its name defined. -/
def Job.found (x : Symbol) : Job → Outcome
  | load _ _ => .own x
  | isLoaded _ => .present true

/-- What a request does next while it holds the lock of its name. -/
inductive Stage where
  /-- Look the name up among the definitions. -/
  | check
  /-- Ask the fallback loader for a support name. -/
  | support
  /-- Ask the bootstrap loader for a bootstrap name. -/
  | bootstrap
  /-- Look whether the name is known to come from the fallback loader. -/
  | consult
  /-- Fetch the raw definition. -/
  | fetch (allowed : Bool)
  /-- Run the transformer. -/
  | transform (f : Fetched)
  /-- Mark a name that the fallback loader supplied. -/
  | mark (f : Fetched) (bytes : ByteArray)
  /-- Compute the descriptor of the origin. -/
  | describe (f : Fetched) (bytes : ByteArray)
  /-- Note the namespace of the name. -/
  | noteNamespace (f : Fetched) (bytes : ByteArray) (descriptor : Descriptor)
  /-- Enter the symbol among the definitions. -/
  | insert (x : Symbol)
  /-- Hand the name over to the other loaders. -/
  | delegate
  /-- Let the lock go. -/
  | release (o : Outcome)

section

variable {φ β : Type}

namespace Stage

/-- Carry out a stage on the pipeline. -/
def next (b : Blueprint φ β) (t : FileTree) (job : Job) :
    Stage → Pipeline φ β → Stage × Pipeline φ β
  | check, s =>
    match s.defined.get? job.key, job with
    | some x, _ => (release (job.found x), s)
    | none, .isLoaded _ => (release (.present false), s)
    | none, .load _ _ =>
      if b.config.isSupport job.key then (support, s)
      else if b.config.isBootstrap job.key then (bootstrap, s)
      else (consult, s)
  | support, s =>
    let (result, s) := Pipeline.orMissing b job.key (s.askFallback b t job.key)
    (release (.handed result), s)
  | bootstrap, s =>
    let (result, s) := Pipeline.orMissing b job.key (s.askBootstrap b t job.key)
    (release (.handed result), s)
  | consult, s => (fetch (job.allowed || s.provenance.isFallbackSourced job.key), s)
  | fetch allowed, s =>
    match s.fetch b t job.key allowed with
    | (.error e, s) => (release (.handed (.error e)), s)
    | (.ok none, s) => (delegate, s)
    | (.ok (some f), s) => (transform f, s)
  | transform f, s =>
    match s.transform b job.key f.bytes with
    | (.error e, s) => (release (.handed (.error e)), s)
    | (.ok bytes, s) => (mark f bytes, s)
  | mark f bytes, s => (describe f bytes, s.markFetched job.key f)
  | describe f bytes, s =>
    let (descriptor, s) := s.describe t f.codeSource
    (noteNamespace f bytes descriptor, s)
  | noteNamespace f bytes descriptor, s =>
    (insert
      { name := job.key, bytes, codeSource := f.codeSource, descriptor,
        definedBy := if f.viaFallback then .layeredFromFallback else .layered },
      s.noteNamespace job.key)
  | insert x, s =>
    let (x, s) := s.insertSymbol x
    (release (.own x), s)
  | delegate, s =>
    let (result, s) := s.delegate b t job.key
    (release (.handed result), s)
  | release o, s => (release o, s)

/-- Whether a stage may call the fallback loader, the bootstrap loader or the transformer. -/
def calls : Stage → Bool
  | support | bootstrap | fetch _ | transform _ | delegate => true
  | _ => false

/-- The symbol that a stage enters among the definitions. -/
def insertion? : Stage → Option Symbol
  | insert x => some x
  | _ => none

/-- Whether a stage takes part in entering a fetched definition. -/
def enters : Stage → Bool
  | mark _ _ | describe _ _ | noteNamespace _ _ _ | insert _ => true
  | _ => false

/-- The other stages leave the tables alone. -/
theorem tables_next {stage : Stage} (h : stage.enters = false) (b : Blueprint φ β) (t : FileTree)
    (job : Job) (s : Pipeline φ β) : (stage.next b t job s).2.tables = s.tables := by
  cases stage with
  | check =>
    simp only [next]
    split
    · rfl
    · rfl
    · split
      · rfl
      · split <;> rfl
  | support | bootstrap | delegate => simp [next]
  | fetch allowed =>
    have ht := Pipeline.tables_fetch b t job.key allowed s
    simp only [next]
    split <;> rename_i he <;> rw [he] at ht <;> exact ht
  | transform f =>
    have ht := Pipeline.tables_transform b job.key f.bytes s
    simp only [next]
    split <;> rename_i he <;> rw [he] at ht <;> exact ht
  | mark f bytes | describe f bytes | noteNamespace f bytes d | insert x => cases h
  | consult | release o => rfl

/-- A stage that calls neither loader nor transformer leaves their states and the log of calls
alone. -/
theorem unchanged_of_not_calls {stage : Stage} (h : stage.calls = false) (b : Blueprint φ β)
    (t : FileTree) (job : Job) (s : Pipeline φ β) :
    (stage.next b t job s).2.fallback = s.fallback ∧
      (stage.next b t job s).2.bootstrap = s.bootstrap ∧
      (stage.next b t job s).2.transformed = s.transformed := by
  cases stage with
  | check =>
    simp only [next]
    split
    · exact ⟨rfl, rfl, rfl⟩
    · exact ⟨rfl, rfl, rfl⟩
    · split
      · exact ⟨rfl, rfl, rfl⟩
      · split <;> exact ⟨rfl, rfl, rfl⟩
  | support | bootstrap | fetch allowed | transform f | delegate => cases h
  | consult | insert x | release o => exact ⟨rfl, rfl, rfl⟩
  | mark f bytes =>
    simp only [next, Pipeline.markFetched]
    split <;> exact ⟨rfl, rfl, rfl⟩
  | describe f bytes =>
    simp only [next, Pipeline.describe]
    split <;> exact ⟨rfl, rfl, rfl⟩
  | noteNamespace f bytes descriptor =>
    simp only [next, Pipeline.noteNamespace]
    split
    · exact ⟨rfl, rfl, rfl⟩
    · split <;> exact ⟨rfl, rfl, rfl⟩

/-- Carry out stages, beginning with the given one, without an interruption. -/
def alone (b : Blueprint φ β) (t : FileTree) (job : Job) :
    Nat → Stage → Pipeline φ β → Stage × Pipeline φ β
  | 0, stage, s => (stage, s)
  | k + 1, stage, s => alone b t job k (stage.next b t job s).1 (stage.next b t job s).2

/-- A request that nothing interrupts goes through at most eight stages, and ends with the answer
and the pipeline of the whole request. -/
theorem finished_alone (b : Blueprint φ β) (t : FileTree) (job : Job) (s : Pipeline φ β) :
    ∃ o, alone b t job 8 check s = (release o, (job.request.run b t s).2) ∧
      o.answer = (job.request.run b t s).1 := by
  cases job with
  | isLoaded name =>
    refine ⟨.present (s.isLoaded name), ?_, rfl⟩
    cases h : s.defined.get? (SymbolName.dotted name) <;>
      simp [alone, next, Job.key, Job.found, Job.request, Request.run, Pipeline.isLoaded,
        Table.contains, h]
  | load name allowed =>
    simp only [Job.request, Request.run_load]
    have hl := Pipeline.loads_loadDotted b t (SymbolName.dotted name) allowed s
    generalize s.loadDotted b t (SymbolName.dotted name) allowed = r at hl ⊢
    cases hl with
    | present hx => exact ⟨.own _, by simp [alone, next, Job.key, Job.found, hx], rfl⟩
    | support undefined hs =>
      exact ⟨.handed _, by simp [alone, next, Job.key, undefined, hs], rfl⟩
    | bootstrap undefined hs hb =>
      exact ⟨.handed _, by simp [alone, next, Job.key, undefined, hs, hb], rfl⟩
    | unfetched undefined hs hb fetched =>
      exact ⟨.handed _,
        by simp [alone, next, Job.key, Job.allowed, undefined, hs, hb, fetched], rfl⟩
    | untransformed undefined hs hb fetched transformed =>
      exact ⟨.handed _,
        by simp [alone, next, Job.key, Job.allowed, undefined, hs, hb, fetched, transformed], rfl⟩
    | defines undefined hs hb fetched transformed =>
      exact ⟨.own _,
        by simp [alone, next, Job.key, Job.allowed, undefined, hs, hb, fetched, transformed,
          Pipeline.define], rfl⟩
    | delegated undefined hs hb fetched =>
      exact ⟨.handed _,
        by simp [alone, next, Job.key, Job.allowed, undefined, hs, hb, fetched], rfl⟩

end Stage

/-- Where a request under a lock stands. -/
inductive Phase where
  /-- It looks for the lock of its name. -/
  | arrived
  /-- It found no lock, and gets the lock that is there by now or makes one. -/
  | missing
  /-- It has a lock and waits for it. -/
  | waiting (lock : Nat)
  /-- It holds the lock. -/
  | inside (lock : Nat) (stage : Stage)
  /-- It has ended. -/
  | done (o : Outcome)

/-- The lock that a request has obtained, until it lets it go. -/
def Phase.lock? : Phase → Option Nat
  | waiting l => some l
  | inside l _ => some l
  | _ => none

/-- A request on its way. -/
structure Task where
  /-- The request. -/
  job : Job
  /-- Where it stands. -/
  phase : Phase

/-- A lock. -/
structure Lock where
  /-- The name that it was made for. -/
  name : String
  /-- The request that holds it. -/
  holder : Option Nat

/-- A pipeline, its files and its locks, and all requests that ever arrived. -/
structure System (φ β : Type) where
  /-- The files. -/
  tree : FileTree
  /-- The pipeline. -/
  pipeline : Pipeline φ β
  /-- The table of locks: for each name the position of its lock. -/
  lockTable : Table String Nat
  /-- All locks ever made. -/
  locks : List Lock
  /-- The requests, in order of arrival. -/
  tasks : List Task
  /-- The symbols that the insert stages were carried out with, oldest first. -/
  insertions : List Symbol

/-- What happens next to a system. -/
inductive Action where
  /-- A request for a lock arrives. -/
  | arrive (job : Job)
  /-- A request takes its next step, if it can. -/
  | advance (i : Nat)
  /-- A request that needs no lock is carried out. -/
  | request (r : Request) (h : r.isLocked = false)
  /-- The files change. -/
  | files (t : FileTree)

namespace System

/-- A new pipeline without requests. -/
def start (b : Blueprint φ β) (t : FileTree) (fallback : φ) (bootstrap : β) : System φ β where
  tree := t
  pipeline := Pipeline.ofBlueprint b fallback bootstrap
  lockTable := Table.empty
  locks := []
  tasks := []
  insertions := []

/-- Put a request into a phase. -/
def moveTo (y : System φ β) (i : Nat) (job : Job) (phase : Phase) : System φ β :=
  { y with tasks := y.tasks.set i ⟨job, phase⟩ }

/-- After a move a request is the one that moved or where it was. -/
theorem task_moveTo {y : System φ β} {i j : Nat} {job : Job} {phase : Phase} {task : Task}
    (h : (y.moveTo i job phase).tasks[j]? = some task) :
    j = i ∧ task = ⟨job, phase⟩ ∨ j ≠ i ∧ y.tasks[j]? = some task := by
  change (y.tasks.set i ⟨job, phase⟩)[j]? = some task at h
  exact of_getElem?_set h

theorem task_moveTo_self {y : System φ β} {i : Nat} {task : Task} (h : y.tasks[i]? = some task)
    (job : Job) (phase : Phase) : (y.moveTo i job phase).tasks[i]? = some ⟨job, phase⟩ :=
  List.getElem?_set_self (List.getElem?_eq_some_iff.1 h).1

/-- Make a lock for a name. -/
def makeLock (y : System φ β) (name : String) : System φ β :=
  { y with
    lockTable := y.lockTable.insert name y.locks.length
    locks := y.locks ++ [⟨name, none⟩] }

/-- Give a lock to a request, or let it go. -/
def setHolder (y : System φ β) (l : Nat) (holder : Option Nat) : System φ β :=
  { y with locks := y.locks.modify l fun k => { k with holder } }

/-- Carry out a stage of a request. -/
def work (b : Blueprint φ β) (y : System φ β) (job : Job) (stage : Stage) : System φ β :=
  { y with
    pipeline := (stage.next b y.tree job y.pipeline).2
    insertions := y.insertions ++ stage.insertion?.toList }

/-- Let a request take its next step. It stays where it is while its lock is held. -/
def advance (b : Blueprint φ β) (y : System φ β) (i : Nat) : Task → System φ β
  | ⟨job, .arrived⟩ =>
    match y.lockTable.get? job.key with
    | some l => y.moveTo i job (.waiting l)
    | none => y.moveTo i job .missing
  | ⟨job, .missing⟩ =>
    match y.lockTable.get? job.key with
    | some l => y.moveTo i job (.waiting l)
    | none => (y.makeLock job.key).moveTo i job (.waiting y.locks.length)
  | ⟨job, .waiting l⟩ =>
    match y.locks[l]? with
    | some ⟨_, none⟩ => (y.setHolder l (some i)).moveTo i job (.inside l .check)
    | _ => y
  | ⟨job, .inside l (.release o)⟩ => (y.setHolder l none).moveTo i job (.done o)
  | ⟨job, .inside l stage⟩ =>
    (y.work b job stage).moveTo i job (.inside l (stage.next b y.tree job y.pipeline).1)
  | ⟨_, .done _⟩ => y

/-- What the next step of a request can do. -/
inductive Moves (b : Blueprint φ β) (y : System φ β) (i : Nat) : Task → System φ β → Prop
  /-- It finds the lock of its name. -/
  | finds {job : Job} {phase : Phase} {l : Nat} (outside : phase = .arrived ∨ phase = .missing)
      (found : y.lockTable.get? job.key = some l) :
      Moves b y i ⟨job, phase⟩ (y.moveTo i job (.waiting l))
  /-- It finds no lock. -/
  | misses {job : Job} (absent : y.lockTable.get? job.key = none) :
      Moves b y i ⟨job, .arrived⟩ (y.moveTo i job .missing)
  /-- It makes the lock of its name. -/
  | makes {job : Job} (absent : y.lockTable.get? job.key = none) :
      Moves b y i ⟨job, .missing⟩
        ((y.makeLock job.key).moveTo i job (.waiting y.locks.length))
  /-- It gets the lock. -/
  | enters {job : Job} {l : Nat} {k : Lock} (lock : y.locks[l]? = some k)
      (free : k.holder = none) :
      Moves b y i ⟨job, .waiting l⟩ ((y.setHolder l (some i)).moveTo i job (.inside l .check))
  /-- It lets the lock go. -/
  | leaves {job : Job} {l : Nat} {o : Outcome} :
      Moves b y i ⟨job, .inside l (.release o)⟩ ((y.setHolder l none).moveTo i job (.done o))
  /-- It carries out a stage. -/
  | works {job : Job} {l : Nat} {stage : Stage} (busy : ∀ o, stage ≠ .release o) :
      Moves b y i ⟨job, .inside l stage⟩ ((y.work b job stage).moveTo i job
        (.inside l (stage.next b y.tree job y.pipeline).1))
  /-- It waits, or has ended. -/
  | stays {job : Job} {phase : Phase}
      (idle : (∃ l, phase = .waiting l) ∨ ∃ o, phase = .done o) : Moves b y i ⟨job, phase⟩ y

/-- The next step of a request does one of these. -/
theorem moves_advance (b : Blueprint φ β) (y : System φ β) (i : Nat) (task : Task) :
    Moves b y i task (y.advance b i task) := by
  obtain ⟨job, phase⟩ := task
  cases phase with
  | arrived =>
    unfold advance
    dsimp only
    split
    · exact .finds (Or.inl rfl) ‹_›
    · exact .misses ‹_›
  | missing =>
    unfold advance
    dsimp only
    split
    · exact .finds (Or.inr rfl) ‹_›
    · exact .makes ‹_›
  | waiting l =>
    unfold advance
    dsimp only
    split
    · exact .enters ‹_› rfl
    · exact .stays (Or.inl ⟨l, rfl⟩)
  | inside l stage =>
    cases stage with
    | release o => exact .leaves
    | _ => exact .works (by simp)
  | done o => exact .stays (Or.inr ⟨o, rfl⟩)

/-- The step of one request leaves the others where they are. -/
theorem task_advance_of_ne {i j : Nat} (hij : i ≠ j) (b : Blueprint φ β) (y : System φ β)
    (task : Task) : (y.advance b i task).tasks[j]? = y.tasks[j]? := by
  have hm := moves_advance b y i task
  generalize y.advance b i task = z at hm ⊢
  cases hm with
  | stays idle => rfl
  | finds | misses | makes | enters | leaves | works => exact List.getElem?_set_ne hij

/-- Let something happen. -/
def step (b : Blueprint φ β) (y : System φ β) : Action → System φ β
  | .arrive job => { y with tasks := y.tasks ++ [⟨job, .arrived⟩] }
  | .advance i =>
    match y.tasks[i]? with
    | some task => y.advance b i task
    | none => y
  | .request r _ => { y with pipeline := (r.run b y.tree y.pipeline).2 }
  | .files t => { y with tree := t }

/-- Arrivals add to the requests and change none. -/
theorem task_arrive {b : Blueprint φ β} {y : System φ β} {job : Job} {i : Nat} {task : Task}
    (h : (y.step b (.arrive job)).tasks[i]? = some task) :
    y.tasks[i]? = some task ∨ task = ⟨job, .arrived⟩ := by
  change (y.tasks ++ [⟨job, .arrived⟩])[i]? = some task at h
  exact (of_getElem?_concat h).imp_right And.right

/-- Let things happen in turn. -/
def run (b : Blueprint φ β) (y : System φ β) (as : List Action) : System φ β := as.foldl (step b) y

/-- What holds at first and is kept by everything that can happen holds after every run. -/
theorem run_induction {b : Blueprint φ β} {y : System φ β} {P : System φ β → Prop} (h0 : P y)
    (hstep : ∀ z a, P z → P (z.step b a)) (as : List Action) : P (y.run b as) := by
  induction as generalizing y with
  | nil => exact h0
  | cons a as ih => exact ih (hstep y a h0)

end System

end

end Overlay
