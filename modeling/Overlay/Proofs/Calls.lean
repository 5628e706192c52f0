import Overlay.Proofs.Defining

/-!
# Calls of the transformer

A pipeline calls its transformer for the draft of a load, and for the definition of a symbol that is
asked for transformed. It logs what the transformer is given, which is all that a state of the
transformer can depend on. Here the calls of a run are listed with the request they are made for and
what the transformer answers; the log is read off the calls, and the answers to the requests tell
the results.
-/

namespace Overlay

/-- Whether a request is a load. -/
def Request.isLoad : Request → Bool
  | load _ _ => true
  | _ => false

/-- A call of the transformer. -/
structure Call where
  /-- The request that the call is made for. -/
  request : Request
  /-- The name. -/
  name : String
  /-- The raw definition. -/
  raw : ByteArray
  /-- What the transformer answers. -/
  result : Except String ByteArray

/-- What the transformer is given in a call. -/
def Call.handed (c : Call) : Handed := (c.name, c.raw)

namespace Pipeline

variable {φ β : Type} {b : Blueprint φ β} {r : Request} {name : String} {raw : ByteArray}
  {s : Pipeline φ β}

/-- The call that transforming a definition makes, if a transformer is installed and the name is not
excluded. -/
def call? (b : Blueprint φ β) (r : Request) (name : String) (raw : ByteArray)
    (s : Pipeline φ β) : Option Call :=
  s.transformer.bind fun tr =>
    if b.config.canTransform name then some ⟨r, name, raw, tr.run s.transformed name raw⟩ else none

theorem call?_eq_some_iff {c : Call} :
    s.call? b r name raw = some c ↔ ∃ tr, s.transformer = some tr ∧
      b.config.canTransform name = true ∧ c = ⟨r, name, raw, tr.run s.transformed name raw⟩ := by
  rw [call?, Option.bind_eq_some_iff]
  simp only [Option.ite_none_right_eq_some, Option.some.injEq, @eq_comm _ c]

theorem call?_eq_none_iff :
    s.call? b r name raw = none ↔ s.transformer = none ∨ b.config.canTransform name = false := by
  cases h : s.transformer <;> simp [call?, h]

/-- Without a call a definition is left as it is. -/
theorem transform_of_call?_none (h : s.call? b r name raw = none) :
    s.transform b name raw = (.ok raw, s) := by
  unfold transform
  rcases call?_eq_none_iff.1 h with hnone | hexcluded
  · rw [hnone]
  · rw [hexcluded]
    split <;> rfl

/-- A call decides what a definition is transformed to, and it is logged. -/
theorem transform_of_call? {c : Call} (h : s.call? b r name raw = some c) :
    (s.transform b name raw).1 = c.result.mapError (.transform name) ∧
      (s.transform b name raw).2.transformed = s.transformed ++ [c.handed] := by
  obtain ⟨tr, htr, hname, rfl⟩ := call?_eq_some_iff.1 h
  unfold transform
  simp only [htr, hname, if_true]
  cases tr.run s.transformed name raw <;> exact ⟨rfl, rfl⟩

/-- A transformer that keeps a state answers from the state that the logged calls lead to, and what
is logged then leads to the state behind the answer. -/
theorem transform_keeping {σ : Type} {start : σ}
    {step : String → ByteArray → σ → Except String ByteArray × σ}
    (h : s.transformer = some (.keeping start step)) (hname : b.config.canTransform name = true) :
    let answered := step name raw (Transformer.stateAfter start step s.transformed)
    (s.transform b name raw).1 = answered.1.mapError (.transform name) ∧
      Transformer.stateAfter start step (s.transform b name raw).2.transformed = answered.2 := by
  have hcall : s.call? b (.load name true) name raw = some _ := call?_eq_some_iff.2 ⟨_, h, hname, rfl⟩
  obtain ⟨hanswer, hlog⟩ := transform_of_call? hcall
  refine ⟨hanswer, ?_⟩
  rw [hlog]
  exact Transformer.stateAfter_concat start step s.transformed name raw

/-- Transforming logs the call that it makes. -/
theorem transformed_transform (b : Blueprint φ β) (r : Request) (name : String) (raw : ByteArray)
    (s : Pipeline φ β) : (s.transform b name raw).2.transformed =
      s.transformed ++ (s.call? b r name raw).toList.map Call.handed := by
  cases h : s.call? b r name raw with
  | none => simp [transform_of_call?_none h]
  | some c => simp [(transform_of_call? h).2]

/-- Asking for a resource calls no transformer. -/
theorem transformed_resource (b : Blueprint φ β) (t : FileTree) (name : String)
    (s : Pipeline φ β) : (s.resource b t name).2.transformed = s.transformed := by
  unfold resource
  split <;> rfl

theorem transformed_resources (b : Blueprint φ β) (t : FileTree) (name : String)
    (s : Pipeline φ β) : (s.resources b t name).2.transformed = s.transformed := by
  unfold resources
  split <;> rfl

theorem transformed_resourceBytes (b : Blueprint φ β) (t : FileTree) (name : String)
    (s : Pipeline φ β) : (s.resourceBytes b t name).2.transformed = s.transformed := by
  have h : (s.resolveRegistered t name).2.transformed = s.transformed := rfl
  unfold resourceBytes
  split <;> rename_i he <;> rw [he] at h <;> exact h

theorem transformed_rawBytes (b : Blueprint φ β) (t : FileTree) (name : String)
    (s : Pipeline φ β) : (s.rawBytes b t name).2.transformed = s.transformed := by
  have h := transformed_fetch b t (SymbolName.dotted name) true s
  unfold rawBytes
  split <;> rename_i he <;> rw [he] at h <;> exact h

/-- The definition of a symbol that is asked for transformed is what the raw one is transformed to. -/
theorem symbolBytes_of_fetch {t : FileTree} {f : Fetched}
    (h : (s.fetch b t (SymbolName.dotted name) true).1 = .ok (some f)) :
    (s.symbolBytes b t name true).1 =
      (s.transform b (SymbolName.dotted name) f.bytes).1.map some := by
  have hslot := transformer_of_tables (tables_fetch b t (SymbolName.dotted name) true s)
  have hlog := transformed_fetch b t (SymbolName.dotted name) true s
  unfold symbolBytes
  generalize s.fetch b t (SymbolName.dotted name) true = fetched at h hslot hlog
  obtain ⟨result, s₁⟩ := fetched
  obtain rfl : result = .ok (some f) := h
  simp only [if_true]
  rw [← transform_fst_congr hslot hlog]
  split <;> rename_i he <;> rw [he] <;> rfl

end Pipeline

/-- The bytes of the definition that an answer gives. -/
def Answer.definition? : Answer → Option ByteArray
  | symbol (.ok x) => some x.bytes
  | bytes (.ok raw) => raw
  | _ => none

/-- An answer tells what the transformer answered to a call: the new definition or the failure. -/
def Answer.Tells (answer : Answer) (c : Call) : Prop :=
  match c.result with
  | .ok new => answer.definition? = some new
  | .error cause => answer.error? = some (.transform c.name cause)

/-- A call is one of the installed transformer, behind some earlier calls, for a name that it may
see. -/
structure Call.Valid {φ β : Type} (b : Blueprint φ β) (s : Pipeline φ β) (earlier : List Handed)
    (c : Call) : Prop where
  /-- The result is what the installed transformer makes of the raw definition. -/
  output : ∃ tr, s.transformer = some tr ∧ c.result = tr.run earlier c.name c.raw
  /-- The name is not excluded. -/
  included : b.config.canTransform c.name = true
  /-- A load calls for no support name and for no bootstrap name. -/
  own : c.request.isLoad = true →
    b.config.isSupport c.name = false ∧ b.config.isBootstrap c.name = false

namespace Request

variable {φ β : Type}

/-- The call of the transformer that a request makes. -/
def call? (b : Blueprint φ β) (t : FileTree) (s : Pipeline φ β) (r : Request) : Option Call :=
  match r with
  | load name allowed =>
    (s.draft? b t (SymbolName.dotted name) allowed).bind fun f =>
      s.call? b r (SymbolName.dotted name) f.bytes
  | symbolBytes name true =>
    (s.fetch b t (SymbolName.dotted name) true).1.toOption.join.bind fun f =>
      s.call? b r (SymbolName.dotted name) f.bytes
  | _ => none

/-- The log grows by the call that a request makes. -/
theorem transformed_run (b : Blueprint φ β) (t : FileTree) (r : Request) (s : Pipeline φ β) :
    (r.run b t s).2.transformed = s.transformed ++ (r.call? b t s).toList.map Call.handed := by
  cases r with
  | load name allowed =>
    have hs := Pipeline.settles_loadDotted b t (SymbolName.dotted name) allowed s
    rw [run_load]
    simp only [call?]
    generalize s.loadDotted b t (SymbolName.dotted name) allowed = r at hs
    cases hs with
    | leaves undrafted tables log => simp [undrafted, log]
    | refuses drafted refused tables log =>
      rw [drafted]
      exact log.trans (Pipeline.transformed_transform b _ _ _ s)
    | defines entered defined_eq provenance_eq transformer_eq log =>
      rw [entered.drafted]
      exact log.trans (Pipeline.transformed_transform b _ _ _ s)
  | symbolBytes name transformed =>
    have hlog := Pipeline.transformed_fetch b t (SymbolName.dotted name) true s
    have hslot := Pipeline.transformer_of_tables
      (Pipeline.tables_fetch b t (SymbolName.dotted name) true s)
    cases transformed with
    | false =>
      simp only [run, call?, Pipeline.symbolBytes]
      generalize s.fetch b t (SymbolName.dotted name) true = fetched at hlog
      rcases fetched with ⟨e | _ | f, s₁⟩ <;> simpa using hlog
    | true =>
      simp only [run, call?, Pipeline.symbolBytes, if_true]
      generalize s.fetch b t (SymbolName.dotted name) true = fetched at hlog hslot
      rcases fetched with ⟨e | _ | f, s₁⟩
      · simpa [Except.toOption] using hlog
      · simpa [Except.toOption] using hlog
      · have htransform := (Pipeline.transformed_transform_congr hslot hlog b
          (SymbolName.dotted name) f.bytes).trans
          (Pipeline.transformed_transform b (symbolBytes name true) _ _ s)
        dsimp only at htransform ⊢
        split <;> rename_i he <;> rw [he] at htransform <;> exact htransform
  | register p tag | isLoaded name | descriptor location | mark name =>
    exact (List.append_nil _).symm
  | install tr =>
    simp only [run, Pipeline.install]
    split <;> simp [call?]
  | resource name => simp [run, call?, Pipeline.transformed_resource]
  | resourceBytes name => simp [run, call?, Pipeline.transformed_resourceBytes]
  | resources name => simp [run, call?, Pipeline.transformed_resources]
  | rawBytes name => simp [run, call?, Pipeline.transformed_rawBytes]

/-- The answer to a request tells what the transformer answered to its call. -/
theorem tells_of_call? {b : Blueprint φ β} {t : FileTree} {s : Pipeline φ β} {r : Request}
    {c : Call} (h : r.call? b t s = some c) : (r.run b t s).1.Tells c := by
  cases r with
  | load name allowed =>
    obtain ⟨f, drafted, hcall⟩ := Option.bind_eq_some_iff.1 h
    have htransform := (Pipeline.transform_of_call? hcall).1
    obtain ⟨tr, -, -, rfl⟩ := Pipeline.call?_eq_some_iff.1 hcall
    have hs := Pipeline.settles_loadDotted b t (SymbolName.dotted name) allowed s
    rw [run_load]
    generalize s.loadDotted b t (SymbolName.dotted name) allowed = r at hs
    cases hs with
    | leaves undrafted =>
      rw [undrafted] at drafted
      cases drafted
    | refuses drafted' refused =>
      obtain rfl := Option.some.inj (drafted.symm.trans drafted')
      rw [refused] at htransform
      cases hrun : tr.run s.transformed (SymbolName.dotted name) f.bytes <;>
        simp only [Answer.Tells, hrun] at htransform ⊢ <;> cases htransform
      rfl
    | defines entered =>
      obtain rfl := Option.some.inj (drafted.symm.trans entered.drafted)
      rw [entered.transformed] at htransform
      cases hrun : tr.run s.transformed (SymbolName.dotted name) f.bytes <;>
        simp only [Answer.Tells, hrun] at htransform ⊢ <;> cases htransform
      rfl
  | symbolBytes name transformed =>
    cases transformed with
    | false => cases h
    | true =>
      obtain ⟨f, fetched, hcall⟩ := Option.bind_eq_some_iff.1 h
      have hfetch : (s.fetch b t (SymbolName.dotted name) true).1 = .ok (some f) := by
        generalize (s.fetch b t (SymbolName.dotted name) true).1 = result at fetched
        rcases result with e | _ | g <;> cases fetched
        rfl
      have hanswer := Pipeline.symbolBytes_of_fetch hfetch
      rw [(Pipeline.transform_of_call? hcall).1] at hanswer
      obtain ⟨tr, -, -, rfl⟩ := Pipeline.call?_eq_some_iff.1 hcall
      change (Answer.bytes (s.symbolBytes b t name true).1).Tells _
      rw [hanswer]
      cases tr.run s.transformed (SymbolName.dotted name) f.bytes <;> rfl
  | _ => cases h

/-- What a request calls is the installed transformer behind the logged calls, for a name that it
may see. -/
theorem valid_of_call? {b : Blueprint φ β} {t : FileTree} {s : Pipeline φ β} {r : Request}
    {c : Call} (h : r.call? b t s = some c) : c.request = r ∧ c.Valid b s s.transformed := by
  cases r with
  | load name allowed =>
    obtain ⟨f, drafted, hcall⟩ := Option.bind_eq_some_iff.1 h
    obtain ⟨tr, htr, hname, rfl⟩ := Pipeline.call?_eq_some_iff.1 hcall
    have hdefinable := (Pipeline.draft?_eq_some_iff.1 drafted).1
    exact ⟨rfl, ⟨tr, htr, rfl⟩, hname,
      fun _ => ⟨hdefinable.not_support, hdefinable.not_bootstrap⟩⟩
  | symbolBytes name transformed =>
    cases transformed with
    | false => cases h
    | true =>
      obtain ⟨f, fetched, hcall⟩ := Option.bind_eq_some_iff.1 h
      obtain ⟨tr, htr, hname, rfl⟩ := Pipeline.call?_eq_some_iff.1 hcall
      exact ⟨rfl, ⟨tr, htr, rfl⟩, hname, nofun⟩
  | _ => cases h

end Request

namespace World

variable {φ β : Type}

/-- The call of the transformer that an event makes. -/
def call? (b : Blueprint φ β) (w : World φ β) : Event → Option Call
  | .request r => r.call? b w.tree w.pipeline
  | .files _ => none

/-- The calls of the transformer that a run makes, oldest first. -/
def calls (b : Blueprint φ β) (w : World φ β) : List Event → List Call
  | [] => []
  | e :: es => (w.call? b e).toList ++ (w.step b e).calls b es

theorem calls_snoc (b : Blueprint φ β) (w : World φ β) (es : List Event) (e : Event) :
    w.calls b (es ++ [e]) = w.calls b es ++ ((w.run b es).call? b e).toList := by
  induction es generalizing w with
  | nil => simp [calls]
  | cons e' es ih => rw [List.cons_append, calls, ih, calls, run_cons, List.append_assoc]

theorem transformed_step (b : Blueprint φ β) (w : World φ β) (e : Event) :
    (w.step b e).pipeline.transformed =
      w.pipeline.transformed ++ (w.call? b e).toList.map Call.handed := by
  cases e with
  | files t => exact (List.append_nil _).symm
  | request r => exact Request.transformed_run b w.tree r w.pipeline

/-- The log holds what the transformer was given in the calls. -/
theorem transformed_run (b : Blueprint φ β) (w : World φ β) (es : List Event) :
    (w.run b es).pipeline.transformed =
      w.pipeline.transformed ++ (w.calls b es).map Call.handed := by
  induction es generalizing w with
  | nil => simp [calls]
  | cons e es ih => rw [run_cons, ih, transformed_step, calls, List.map_append, List.append_assoc]

end World

end Overlay
