/-!
# Transformers

A transformer gives the raw definition of a name a new form or refuses it. It may keep a state, such
as a count of its calls, and so answer the same call differently the next time. What its state is
follows from its earlier calls; a transformer is therefore given by its answers behind any calls.
`keeping` makes one of a state and a step.
-/

namespace Overlay

/-- What a transformer is called with: a name and its raw definition. -/
abbrev Handed := String × ByteArray

/-- A change of definitions: from the name and the raw definition to the new definition or the
reason why there is none. -/
structure Transformer where
  /-- The answer to a call behind some calls, which are listed with the oldest first. -/
  run : List Handed → String → ByteArray → Except String ByteArray

namespace Transformer

/-- A transformer that keeps no state. -/
def stateless (f : String → ByteArray → Except String ByteArray) : Transformer := ⟨fun _ => f⟩

/-- The transformer that changes nothing. -/
def identity : Transformer := stateless fun _ bytes => .ok bytes

section

variable {σ : Type} (start : σ) (step : String → ByteArray → σ → Except String ByteArray × σ)

/-- The state that some calls lead to. -/
def stateAfter (calls : List Handed) : σ := calls.foldl (fun s c => (step c.1 c.2 s).2) start

/-- A transformer that keeps a state: a call is answered from the state, and changes it. -/
def keeping : Transformer := ⟨fun calls name raw => (step name raw (stateAfter start step calls)).1⟩

theorem stateAfter_concat (calls : List Handed) (name : String) (raw : ByteArray) :
    stateAfter start step (calls ++ [(name, raw)]) =
      (step name raw (stateAfter start step calls)).2 := List.foldl_append ..

end

/-- A transformer is pure if its earlier calls make no difference to its answers. -/
def IsPure (tr : Transformer) : Prop :=
  ∀ calls name raw, tr.run calls name raw = tr.run [] name raw

theorem isPure_stateless (f : String → ByteArray → Except String ByteArray) :
    (stateless f).IsPure := fun _ _ _ => rfl

end Transformer

end Overlay
