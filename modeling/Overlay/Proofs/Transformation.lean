import Overlay.Loader.Memory
import Overlay.Proofs.Calls
import Overlay.Proofs.Slots

/-!
# Transforming once

The first transformer that is installed stays. A load that defines its name from then on makes the
one successful call for that name, unless the name is excluded, and the symbol gets what the call
gave; a call that failed leaves the name to be loaded again. Nothing else that a load does calls the
transformer.
-/

namespace Overlay

/-- The successful calls that loads make for a name. -/
def Call.successes (name : String) (cs : List Call) : List Call :=
  cs.filter fun c => c.request.isLoad && c.name == name && c.result.isOk

theorem Call.successes_append (name : String) (cs ds : List Call) :
    successes name (cs ++ ds) = successes name cs ++ successes name ds :=
  List.filter_append ..

/-- There is no success without a call of a load for the name that gives bytes. -/
theorem Call.successes_eq_nil {name : String} {call : Option Call}
    (h : ∀ c bytes, call = some c → c.request.isLoad = true → c.name = name →
      c.result ≠ .ok bytes) : successes name call.toList = [] := by
  cases call with
  | none => rfl
  | some c =>
    have hc := fun bytes => h c bytes rfl
    cases hr : c.result with
    | error cause => simp [successes, hr, Except.isOk, Except.toBool]
    | ok bytes =>
      have hnot : ¬(c.request.isLoad = true ∧ c.name = name) := by
        rintro ⟨hload, hname⟩
        exact hc bytes hload hname hr
      simpa [successes, hr, Except.isOk, Except.toBool] using hnot

namespace Pipeline

variable {φ β : Type} {b : Blueprint φ β} {r : Request} {name : String} {raw : ByteArray}
  {s : Pipeline φ β}

/-- How a raw definition became the bytes of a symbol, and the successful calls that this took. -/
inductive Treats (b : Blueprint φ β) (r : Request) (name : String) (raw bytes : ByteArray)
    (s : Pipeline φ β) : List Call → Prop
  /-- Nothing is installed yet or the name is excluded, so the definition is left as it is. -/
  | leaves (h : s.transformer = none ∨ b.config.canTransform name = false)
      (bytes_eq : bytes = raw) : Treats b r name raw bytes s []
  /-- The bytes are what the installed transformer answers. -/
  | transforms {tr : Transformer} (installed : s.transformer = some tr)
      (included : b.config.canTransform name = true)
      (output : tr.run s.transformed name raw = .ok bytes) :
      Treats b r name raw bytes s [⟨r, name, raw, .ok bytes⟩]

/-- A definition is transformed by the calls that it takes. -/
theorem treats_of_transform {bytes : ByteArray} (h : (s.transform b name raw).1 = .ok bytes)
    (hr : r.isLoad = true) :
    Treats b r name raw bytes s (Call.successes name (s.call? b r name raw).toList) := by
  cases hcall : s.call? b r name raw with
  | none =>
    rw [transform_of_call?_none hcall] at h
    exact .leaves (call?_eq_none_iff.1 hcall) (Except.ok.inj h).symm
  | some c =>
    have htransform := (transform_of_call? hcall).1
    obtain ⟨tr, htr, hname, rfl⟩ := call?_eq_some_iff.1 hcall
    have houtput : tr.run s.transformed name raw = .ok bytes := by
      rw [h] at htransform
      cases hrun : tr.run s.transformed name raw with
      | error cause =>
        rw [hrun] at htransform
        cases htransform
      | ok bytes' =>
        rw [hrun] at htransform
        exact congrArg Except.ok (Except.ok.inj htransform).symm
    have hsuccess : Call.successes name
        (some (Call.mk r name raw (tr.run s.transformed name raw))).toList =
          [⟨r, name, raw, .ok bytes⟩] := by
      simp [Call.successes, houtput, hr, Except.isOk, Except.toBool]
    rw [hsuccess]
    exact .transforms htr hname houtput

/-- A call for a definition that is refused is no success. -/
theorem successes_of_refused {e : LoadError} (h : (s.transform b name raw).1 = .error e)
    (other : String) : Call.successes other (s.call? b r name raw).toList = [] := by
  apply Call.successes_eq_nil
  intro c bytes hcall _ _ hbytes
  have htransform := (transform_of_call? hcall).1
  rw [h, hbytes] at htransform
  cases htransform

/-- A call for one name is no success for another. -/
theorem successes_of_ne {other : String} (h : other ≠ name) :
    Call.successes other (s.call? b r name raw).toList = [] := by
  apply Call.successes_eq_nil
  intro c bytes hcall _ hname
  obtain ⟨tr, -, -, rfl⟩ := call?_eq_some_iff.1 hcall
  exact absurd hname.symm h

/-- A load leaves the installed transformer alone. -/
theorem transformer_loadDotted (b : Blueprint φ β) (t : FileTree) (name : String)
    (allowed : Bool) (s : Pipeline φ β) :
    (s.loadDotted b t name allowed).2.transformer = s.transformer :=
  congrArg (·.2.2) (fixtures_loadDotted b t name allowed s)

end Pipeline

namespace Event

/-- The transformer that an event tries to install. -/
def installed? : Event → Option Transformer
  | request (.install tr) => some tr
  | _ => none

end Event

namespace World

variable {φ β : Type}

/-- Only the first transformer is installed. -/
theorem transformer_step (b : Blueprint φ β) (w : World φ β) (e : Event) :
    (w.step b e).pipeline.transformer = w.pipeline.transformer.or e.installed? := by
  have hkept (h : (w.step b e).pipeline.transformer = w.pipeline.transformer)
      (he : e.installed? = none) : (w.step b e).pipeline.transformer =
        w.pipeline.transformer.or e.installed? := by
    rw [h, he, Option.or_none]
  cases e with
  | files t => exact hkept rfl rfl
  | request r =>
    by_cases hasks : r.asks = true
    · have htables := Request.tables_run_of_asks hasks b w.tree w.pipeline
      refine hkept (Pipeline.transformer_of_tables htables) ?_
      cases r <;> first | rfl | cases hasks
    cases r with
    | install tr =>
      simp only [step, Request.run, Pipeline.install, Event.installed?]
      split <;> rename_i h <;> simp [h]
    | load name allowed =>
      refine hkept ?_ rfl
      rw [pipeline_load]
      exact Pipeline.transformer_loadDotted b w.tree _ allowed w.pipeline
    | register p tag | descriptor location | mark name => exact hkept rfl rfl
    | _ => exact absurd rfl hasks

theorem transformer_run (b : Blueprint φ β) (w : World φ β) (es : List Event) :
    (w.run b es).pipeline.transformer =
      w.pipeline.transformer.or (es.findSome? Event.installed?) := by
  induction es generalizing w with
  | nil => simp
  | cons e es ih =>
    rw [run_cons, ih, transformer_step, List.findSome?_cons]
    cases w.pipeline.transformer <;> cases e.installed? <;> simp

/-- An event makes a symbol from the draft of its name, with these successful calls. -/
def Makes (b : Blueprint φ β) (name : String) (x : Symbol) (successes : List Call)
    (w : World φ β) (e : Event) : Prop :=
  ∃ spelling allowed f, e = .request (.load spelling allowed) ∧
    SymbolName.dotted spelling = name ∧
    Pipeline.Enters b w.tree name allowed w.pipeline f x ∧
    Pipeline.Treats b (.load spelling allowed) name f.bytes x.bytes w.pipeline successes

/-- An event leaves a name as it is and has no success for it, or makes its symbol. -/
theorem makes_step (b : Blueprint φ β) (w : World φ β) (e : Event) (name : String) :
    ((w.step b e).pipeline.defined.get? name = w.pipeline.defined.get? name ∧
        Call.successes name (w.call? b e).toList = []) ∨
      (w.pipeline.defined.get? name = none ∧
        ∃ x, (w.step b e).pipeline.defined.get? name = some x ∧
          Makes b name x (Call.successes name (w.call? b e).toList) w e) := by
  have hcall_load {spelling : String} {allowed : Bool} {f : Fetched}
      (drafted : w.pipeline.draft? b w.tree (SymbolName.dotted spelling) allowed = some f) :
      w.call? b (.request (.load spelling allowed)) = w.pipeline.call? b (.load spelling allowed)
        (SymbolName.dotted spelling) f.bytes := by
    simp [call?, Request.call?, drafted]
  -- only a load defines a name, and only the calls of loads count as successes
  by_cases hload : ∃ spelling allowed, e = .request (.load spelling allowed)
  · obtain ⟨spelling, allowed, rfl⟩ := hload
    have hs := Pipeline.settles_loadDotted b w.tree (SymbolName.dotted spelling) allowed w.pipeline
    rw [pipeline_load]
    generalize w.pipeline.loadDotted b w.tree (SymbolName.dotted spelling) allowed = r at hs
    cases hs with
    | leaves undrafted tables =>
      refine Or.inl ⟨by rw [Pipeline.defined_of_tables tables], ?_⟩
      simp [call?, Request.call?, undrafted, Call.successes]
    | refuses drafted refused tables =>
      rw [hcall_load drafted, Pipeline.successes_of_refused refused]
      exact Or.inl ⟨by rw [Pipeline.defined_of_tables tables], rfl⟩
    | @defines f x s' entered defined_eq =>
      have undefined := (Pipeline.draft?_eq_some_iff.1 entered.drafted).1.undefined
      rw [hcall_load entered.drafted]
      by_cases hn : name = SymbolName.dotted spelling
      · subst hn
        have htreats := Pipeline.treats_of_transform (r := .load spelling allowed)
          entered.transformed rfl
        exact Or.inr ⟨undefined, x, by rw [defined_eq, Table.get?_insert_self], spelling, allowed,
          f, rfl, rfl, entered, htreats⟩
      · rw [Pipeline.successes_of_ne hn]
        exact Or.inl ⟨by rw [defined_eq, Table.get?_insert_of_ne _ hn], rfl⟩
  · have hsame := (w.load_or_defined_step b e).resolve_left hload
    refine Or.inl ⟨by rw [hsame], ?_⟩
    apply Call.successes_eq_nil
    intro c bytes hcall hrequest
    cases e with
    | files t => cases hcall
    | request r =>
      rw [(Request.valid_of_call? hcall).1] at hrequest
      cases r with
      | load spelling allowed => exact absurd ⟨spelling, allowed, rfl⟩ hload
      | _ => cases hrequest

/-- The successful calls of a run account for the symbols that are defined. -/
structure Accounted (b : Blueprint φ β) (w₀ : World φ β) (es : List Event) : Prop where
  /-- A defined symbol was made by an event, with all the successful calls for its name. -/
  made : ∀ name x, (w₀.run b es).pipeline.defined.get? name = some x →
    w₀.Happened b es fun w e _ => Makes b name x (Call.successes name (w₀.calls b es)) w e
  /-- There is no successful call for an undefined name. -/
  unmade : ∀ name, (w₀.run b es).pipeline.defined.get? name = none →
    Call.successes name (w₀.calls b es) = []

/-- Every event keeps the account. -/
theorem Accounted.snoc {b : Blueprint φ β} {w₀ : World φ β} {es : List Event}
    (h : Accounted b w₀ es) (e : Event) : Accounted b w₀ (es ++ [e]) := by
  have hsnoc (name : String) : Call.successes name (w₀.calls b (es ++ [e])) =
      Call.successes name (w₀.calls b es) ++
        Call.successes name ((w₀.run b es).call? b e).toList := by
    rw [calls_snoc, Call.successes_append]
  constructor
  · intro name x hx
    rw [run_snoc] at hx
    rw [hsnoc, happened_snoc]
    rcases makes_step b (w₀.run b es) e name with ⟨hsame, hnil⟩ | ⟨hnone, y, hy, hmakes⟩
    · rw [hsame] at hx
      rw [hnil, List.append_nil]
      exact Or.inl (h.made name x hx)
    · -- the name was undefined before the last event, so there was no success for it yet
      obtain rfl := Option.some.inj (hy.symm.trans hx)
      rw [h.unmade name hnone, List.nil_append]
      exact Or.inr hmakes
  · intro name hx
    rw [run_snoc] at hx
    rw [hsnoc]
    rcases makes_step b (w₀.run b es) e name with ⟨hsame, hnil⟩ | ⟨hnone, y, hy, hmakes⟩
    · rw [hsame] at hx
      rw [h.unmade name hx, hnil, List.append_nil]
    · rw [hx] at hy
      cases hy

theorem accounted_run (b : Blueprint φ β) (t : FileTree) (f : φ) (g : β) (es : List Event) :
    Accounted b (World.start b t f g) es := by
  let w₀ := World.start b t f g
  have h0 : Accounted b w₀ [] := ⟨nofun, fun _ _ => rfl⟩
  exact run_induction (b := b) (w := w₀) (P := fun es _ => Accounted b w₀ es) h0
    (fun _ e _ h => h.snoc e) es

/-- A valid call stays valid. -/
theorem valid_step {b : Blueprint φ β} {w : World φ β} {earlier : List Handed} {c : Call}
    (h : c.Valid b w.pipeline earlier) (e : Event) : c.Valid b (w.step b e).pipeline earlier := by
  obtain ⟨tr, htr, hresult⟩ := h.output
  refine ⟨⟨tr, ?_, hresult⟩, h.included, h.own⟩
  rw [transformer_step, htr, Option.some_or]

/-- Every call of a run is one of the installed transformer behind the calls before it. -/
theorem valid_run (b : Blueprint φ β) (w₀ : World φ β) (es : List Event) :
    ∀ (i : Nat) (c : Call), (w₀.calls b es)[i]? = some c → c.Valid b (w₀.run b es).pipeline
      (w₀.pipeline.transformed ++ ((w₀.calls b es).take i).map Call.handed) := by
  refine run_induction (b := b) (w := w₀) (P := fun es _ => ∀ (i : Nat) (c : Call),
    (w₀.calls b es)[i]? = some c → c.Valid b (w₀.run b es).pipeline
      (w₀.pipeline.transformed ++ ((w₀.calls b es).take i).map Call.handed)) nofun ?_ es
  intro es e _ h i c hc
  rw [run_snoc]
  rw [calls_snoc] at hc ⊢
  refine valid_step ?_ e
  cases hcall : (w₀.run b es).call? b e with
  | none =>
    rw [hcall, Option.toList_none, List.append_nil] at hc
    rw [Option.toList_none, List.append_nil]
    exact h i c hc
  | some d =>
    rw [hcall, Option.toList_some] at hc
    rw [Option.toList_some]
    rcases of_getElem?_concat hc with hold | ⟨rfl, rfl⟩
    · rw [List.take_append_of_le_length (Nat.le_of_lt (List.getElem?_eq_some_iff.1 hold).1)]
      exact h i c hold
    · -- the log before the event holds what all calls before it were given
      rw [List.take_left, ← transformed_run]
      cases e with
      | files t => cases hcall
      | request r => exact (Request.valid_of_call? hcall).2

/-- What a run has to do with its transformer. -/
structure TransformsOnce (b : Blueprint φ β) (w₀ : World φ β) (es : List Event) : Prop
    extends Accounted b w₀ es where
  /-- The transformer is the first that the run tried to install. -/
  first : (w₀.run b es).pipeline.transformer = es.findSome? Event.installed?
  /-- Every further attempt fails and changes nothing. -/
  refused : ∀ tr tr', (w₀.run b es).pipeline.transformer = some tr →
    (Request.install tr').run b (w₀.run b es).tree (w₀.run b es).pipeline =
      (.installed (.error .doubleInstall), (w₀.run b es).pipeline)
  /-- The log holds what the transformer was given in the calls. -/
  logged : (w₀.run b es).pipeline.transformed = (w₀.calls b es).map Call.handed
  /-- Every call is one of the installed transformer behind the calls before it, for a name that it
  may see. -/
  valid : ∀ (i : Nat) (c : Call), (w₀.calls b es)[i]? = some c →
    c.Valid b (w₀.run b es).pipeline (((w₀.calls b es).take i).map Call.handed)
  /-- A request answers what the transformer answers to its call. -/
  answered : ∀ (r : Request) (c : Call),
    r.call? b (w₀.run b es).tree (w₀.run b es).pipeline = some c →
      (r.run b (w₀.run b es).tree (w₀.run b es).pipeline).1.Tells c
  /-- A load makes no call if its name is defined or belongs to another loader, or if it hands the
  name over. -/
  silent : ∀ spelling allowed,
    ¬(w₀.run b es).pipeline.Definable b (SymbolName.dotted spelling) ∨
      Pipeline.Delegated b (w₀.run b es).tree (SymbolName.dotted spelling) allowed
        (w₀.run b es).pipeline →
      (w₀.run b (es ++ [.request (.load spelling allowed)])).pipeline.transformed =
        (w₀.run b es).pipeline.transformed

/-- In every run of a pipeline that is built without a transformer, the first transformer that is
installed stays, each symbol that is defined from then on gets what one successful call made of its
draft unless its name is excluded, and all other symbols are left as they were fetched. -/
theorem transformsOnce_run (b : Blueprint φ β) (t : FileTree) (f : φ) (g : β) (es : List Event) :
    TransformsOnce b (World.start b t f g) es where
  toAccounted := accounted_run b t f g es
  first := transformer_run b _ es
  refused tr tr' h := by simp only [Request.run, Pipeline.install, h]
  logged := transformed_run b _ es
  valid := valid_run b (World.start b t f g) es
  answered r c h := Request.tells_of_call? h
  silent spelling allowed h := by
    have hundrafted : ((World.start b t f g).run b es).pipeline.draft? b
        ((World.start b t f g).run b es).tree (SymbolName.dotted spelling) allowed = none := by
      rcases h with hnot | hdelegated
      · rw [Option.eq_none_iff_forall_ne_some]
        intro f hf
        exact hnot (Pipeline.draft?_eq_some_iff.1 hf).1
      · exact hdelegated.draft?_eq_none
    rw [run_snoc, transformed_step, call?, Request.call?, hundrafted]
    exact List.append_nil _

/-- A transformer that counts its calls, puts their number behind the definition and refuses the
first. -/
def counting : Transformer :=
  .keeping 0 fun _ raw n => (if n = 0 then .error "not yet" else .ok (raw.push n), n + 1)

/-- A name is defined before and another one after the installation, which is tried again in vain.
Only the second is transformed: the first load of it fails, the next one succeeds on the same raw
definition, and the last one calls nothing. -/
theorem transformsOnce_of_two_installs :
    let stored (name : String) (byte : UInt8) : Resource := ⟨.entry ⟨"/a.tar"⟩ name, ⟨#[byte]⟩⟩
    let f := (Memory.empty.addResource "m.sym" (stored "m.sym" 1)).addResource "n.sym"
      (stored "n.sym" 2)
    let b : Blueprint Memory Unit := ⟨{}, Memory.loader, BootstrapLoader.none⟩
    let w₀ := World.start b ⟨[], []⟩ f ()
    let es : List Event :=
      [.request (.load "m" true), .request (.install counting), .request (.install .identity),
        .request (.load "n" true), .request (.load "n" true), .request (.load "n" false)]
    TransformsOnce b w₀ es ∧
      ((w₀.run b es).pipeline.defined.get? "m").map (·.bytes) = some ⟨#[1]⟩ ∧
      ((w₀.run b es).pipeline.defined.get? "n").map (·.bytes) = some ⟨#[2, 1]⟩ ∧
      (w₀.calls b es).map Call.handed = [("n", ⟨#[2]⟩), ("n", ⟨#[2]⟩)] ∧
      (Call.successes "m" (w₀.calls b es)).map (·.raw) = [] ∧
      (Call.successes "n" (w₀.calls b es)).map (·.raw) = [⟨#[2]⟩] := by
  intro stored f b w₀ es
  refine ⟨transformsOnce_run b ⟨[], []⟩ f () es, ?_, ?_, ?_, ?_, ?_⟩
  · decide +kernel
  · decide +kernel
  · decide +kernel
  · decide +kernel
  · decide +kernel

end World

end Overlay
