import Overlay.Pipeline.Query

/-!
# Runs of a pipeline

A run is a sequence of events: requests to one pipeline, in any order, and changes of the file
tree between them. The loaders below the pipeline are whatever its blueprint holds. A property of
every run is proved by one step lemma and the induction principle at the end.
-/

namespace Overlay

/-- A request to a pipeline. -/
inductive Request where
  /-- Register the origin that a path leads to. -/
  | register (path : Path) (tag : Option OriginTag)
  /-- Install a transformer. -/
  | install (transformer : Transformer)
  /-- Load a symbol, with or without leave to define it from the fallback loader's bytes. -/
  | load (name : String) (allowed : Bool)
  /-- Ask whether a symbol is defined. -/
  | isLoaded (name : String)
  /-- Ask for the location of a resource. -/
  | resource (name : String)
  /-- Ask for the content of a resource. -/
  | resourceBytes (name : String)
  /-- Ask for all locations of a resource. -/
  | resources (name : String)
  /-- Ask for the raw definition of a symbol. -/
  | rawBytes (name : String)
  /-- Ask for the definition of a symbol, transformed or not. -/
  | symbolBytes (name : String) (transformed : Bool)
  /-- Ask for the descriptor of an origin. -/
  | descriptor (location : Path)
  /-- Mark a name as one that came from the fallback loader. -/
  | mark (name : String)

/-- The answer to a request. -/
inductive Answer where
  /-- Whether an origin was new. -/
  | registered (result : Except LoadError Bool)
  /-- Whether the transformer was installed. -/
  | installed (result : Except LoadError Unit)
  /-- A loaded symbol. -/
  | symbol (result : Except LoadError Symbol)
  /-- Whether a symbol is defined. -/
  | isLoaded (result : Bool)
  /-- The location of a resource. -/
  | location (result : Option Location)
  /-- All locations of a resource. -/
  | locations (result : List Location)
  /-- The content of a resource or a definition. -/
  | bytes (result : Except LoadError (Option ByteArray))
  /-- The descriptor of an origin. -/
  | descriptor (result : Descriptor)
  /-- Nothing to tell. -/
  | done

/-- The error that an answer reports, if it does. -/
def Answer.error? : Answer → Option LoadError
  | registered (.error e) => some e
  | installed (.error e) => some e
  | symbol (.error e) => some e
  | bytes (.error e) => some e
  | _ => none

section

variable {e : LoadError}

theorem Answer.error?_registered {result : Except LoadError Bool} :
    (registered result).error? = some e ↔ result = .error e := by
  cases result <;> simp [error?]

theorem Answer.error?_installed {result : Except LoadError Unit} :
    (installed result).error? = some e ↔ result = .error e := by
  cases result <;> simp [error?]

theorem Answer.error?_symbol {result : Except LoadError Symbol} :
    (symbol result).error? = some e ↔ result = .error e := by
  cases result <;> simp [error?]

theorem Answer.error?_bytes {result : Except LoadError (Option ByteArray)} :
    (bytes result).error? = some e ↔ result = .error e := by
  cases result <;> simp [error?]

end

section

variable {φ β : Type}

namespace Request

/-- Carry out a request on the files of a tree. -/
def run (b : Blueprint φ β) (t : FileTree) : Request → Pipeline φ β → Answer × Pipeline φ β
  | register p tag, s => let (r, s) := s.registerOrigin t p tag; (.registered r, s)
  | install tr, s => let (r, s) := s.install tr; (.installed r, s)
  | load name false, s => let (r, s) := s.load b t name; (.symbol r, s)
  | load name true, s => let (r, s) := s.loadWithFallback b t name; (.symbol r, s)
  | isLoaded name, s => (.isLoaded (s.isLoaded name), s)
  | resource name, s => let (r, s) := s.resource b t name; (.location r, s)
  | resourceBytes name, s => let (r, s) := s.resourceBytes b t name; (.bytes r, s)
  | resources name, s => let (r, s) := s.resources b t name; (.locations r, s)
  | rawBytes name, s => let (r, s) := s.rawBytes b t name; (.bytes r, s)
  | symbolBytes name transformed, s =>
    let (r, s) := s.symbolBytes b t name transformed; (.bytes r, s)
  | descriptor location, s => let (r, s) := s.descriptorFor t location; (.descriptor r, s)
  | mark name, s => (.done, s.mark name)

/-- Both ways to load a symbol load its dotted name. -/
theorem run_load (b : Blueprint φ β) (t : FileTree) (name : String) (allowed : Bool)
    (s : Pipeline φ β) :
    (load name allowed).run b t s =
      (.symbol (s.loadDotted b t (SymbolName.dotted name) allowed).1,
        (s.loadDotted b t (SymbolName.dotted name) allowed).2) := by
  cases allowed <;> rfl

/-- The name that a request marks by itself. -/
def marked? : Request → Option String
  | mark name => some name
  | _ => none

/-- Whether a request works under the lock of a symbol's name. -/
def isLocked : Request → Bool
  | load _ _ => true
  | isLoaded _ => true
  | _ => false

end Request

/-- What happens next to a pipeline. -/
inductive Event where
  /-- A request. -/
  | request (r : Request)
  /-- A change of the files. -/
  | files (t : FileTree)

namespace Event

/-- The name that an event marks by itself. -/
def marked? : Event → Option String
  | request r => r.marked?
  | files _ => none

/-- The names that some events mark by themselves. -/
def marks (es : List Event) : List String := es.filterMap marked?

theorem marks_snoc (es : List Event) (e : Event) :
    marks (es ++ [e]) = marks es ++ e.marked?.toList := by
  cases h : e.marked? <;> simp [marks, h]

end Event

/-- A pipeline and the files it works on. -/
structure World (φ β : Type) where
  /-- The files. -/
  tree : FileTree
  /-- The pipeline. -/
  pipeline : Pipeline φ β

namespace World

/-- A new pipeline over loaders in the given states. -/
def start (b : Blueprint φ β) (t : FileTree) (fallback : φ) (bootstrap : β) : World φ β :=
  ⟨t, Pipeline.ofBlueprint b fallback bootstrap⟩

/-- Let one event happen. -/
def step (b : Blueprint φ β) (w : World φ β) : Event → World φ β
  | .request r => { w with pipeline := (r.run b w.tree w.pipeline).2 }
  | .files t => { w with tree := t }

/-- Let events happen in turn. -/
def run (b : Blueprint φ β) (w : World φ β) (es : List Event) : World φ β := es.foldl (step b) w

@[simp] theorem run_nil (b : Blueprint φ β) (w : World φ β) : w.run b [] = w := rfl

theorem run_cons (b : Blueprint φ β) (w : World φ β) (e : Event) (es : List Event) :
    w.run b (e :: es) = (w.step b e).run b es := rfl

theorem run_append (b : Blueprint φ β) (w : World φ β) (es fs : List Event) :
    w.run b (es ++ fs) = (w.run b es).run b fs := List.foldl_append ..

theorem run_snoc (b : Blueprint φ β) (w : World φ β) (es : List Event) (e : Event) :
    w.run b (es ++ [e]) = (w.run b es).step b e := run_append b w es [e]

/-- The answer to an event, if it is a request. -/
def answer? (b : Blueprint φ β) (w : World φ β) : Event → Option Answer
  | .request r => some (r.run b w.tree w.pipeline).1
  | .files _ => none

/-- The answers to the requests of a run, in their order. -/
def answers (b : Blueprint φ β) (w : World φ β) : List Event → List Answer
  | [] => []
  | e :: es => (w.answer? b e).toList ++ (w.step b e).answers b es

/-- Some event of a run was of a given kind, which says what it found and what it left. -/
def Happened (b : Blueprint φ β) (w : World φ β) (es : List Event)
    (kind : World φ β → Event → World φ β → Prop) : Prop :=
  ∃ before e later, es = before ++ e :: later ∧
    kind (w.run b before) e ((w.run b before).step b e)

/-- What happened in a run happened before its last event or at it. -/
theorem happened_snoc {b : Blueprint φ β} {w : World φ β} {es : List Event} {e : Event}
    {kind : World φ β → Event → World φ β → Prop} :
    w.Happened b (es ++ [e]) kind ↔
      w.Happened b es kind ∨ kind (w.run b es) e ((w.run b es).step b e) := by
  constructor
  · rintro ⟨before, e', later, he, hkind⟩
    rcases later.eq_nil_or_concat with rfl | ⟨later', last, rfl⟩
    · obtain ⟨rfl, rfl⟩ := List.append_singleton_inj.1 he
      exact Or.inr hkind
    · left
      have happ : es ++ [e] = (before ++ e' :: later') ++ [last] := by simpa using he
      obtain ⟨rfl, -⟩ := List.append_singleton_inj.1 happ
      exact ⟨before, e', later', rfl, hkind⟩
  · rintro (⟨before, e', later, rfl, hkind⟩ | hkind)
    · exact ⟨before, e', later ++ [e], by simp, hkind⟩
    · exact ⟨es, e, [], rfl, hkind⟩

/-- What holds at first and is kept by every event holds after every run. The property may speak
of the events so far. -/
theorem run_induction {b : Blueprint φ β} {w : World φ β} {P : List Event → World φ β → Prop}
    (h0 : P [] w) (hstep : ∀ es e v, P es v → P (es ++ [e]) (v.step b e)) (es : List Event) :
    P es (w.run b es) := by
  suffices h : ∀ fs v, P fs v → ∀ es, P (fs ++ es) (v.run b es) by
    simpa using h [] w h0 es
  intro fs v hv es
  induction es generalizing fs v with
  | nil => simpa using hv
  | cons e es ih =>
    rw [run_cons]
    simpa only [List.append_assoc, List.singleton_append] using ih _ _ (hstep fs e v hv)

end World

end

end Overlay
