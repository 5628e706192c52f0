import Overlay.Proofs.Fallback
import Overlay.Proofs.Sanction

/-!
# Nested names

A name that is nested in one from the fallback loader has leave to be defined from that loader's
bytes. But a fetch looks into the registered origins first, whatever the provenance of the name. So
a copy in an origin that was registered in the meantime wins, and only without such a copy does the
nested name stay with its enclosing name.
-/

namespace Overlay

namespace Pipeline

variable {φ β : Type} {b : Blueprint φ β} {t : FileTree} {name : String} {allowed : Bool}
  {s : Pipeline φ β}

/-- A registered origin supplies a definition: a copy that the transformer accepts. -/
structure SuppliedByOrigin (b : Blueprint φ β) (t : FileTree) (name : String)
    (s : Pipeline φ β) : Prop extends s.Definable b name where
  /-- The first registered origin with the resource has the copy. -/
  supplied : ∃ o r bytes,
    (s.registry.resolve? t (SymbolName.resource name b.config.resourceSuffix) s.lookups).1 =
        .ok (some (o, r)) ∧
      (s.transform b name r.bytes).1 = .ok bytes

/-- The fallback loader supplies a definition that no registered origin has. -/
structure SuppliedByFallback (b : Blueprint φ β) (t : FileTree) (name : String)
    (s : Pipeline φ β) : Prop extends s.Definable b name where
  /-- No registered origin has the resource. -/
  absent : (s.registry.resolve? t (SymbolName.resource name b.config.resourceSuffix)
    s.lookups).1 = .ok none
  /-- The fallback loader has a copy outside the registered origins, which the transformer
  accepts. -/
  supplied : ∃ r bytes,
    (b.fallback.resolve t (SymbolName.resource name b.config.resourceSuffix) s.fallback).1 =
        some r ∧
      s.registry.isShadowed t r.location (SymbolName.resource name b.config.resourceSuffix) =
        false ∧
      (s.transform b name r.bytes).1 = .ok bytes

/-- A load defines its name from a registered origin if one supplies the definition. -/
theorem gains_layered_iff :
    s.Gains (s.loadDotted b t name allowed).2 name .layered ↔ s.SuppliedByOrigin b t name := by
  rw [gains_loadDotted_iff]
  constructor
  · rintro ⟨-, f, bytes, drafted, transformed, hby⟩
    obtain ⟨hdefinable, hfetched⟩ := draft?_eq_some_iff.1 drafted
    rcases fetch_eq_some_iff.1 hfetched with ⟨o, r, hfound, rfl⟩ | ⟨-, -, r, -, -, rfl⟩
    · exact ⟨hdefinable, o, r, bytes, hfound, transformed⟩
    · cases hby
  · rintro ⟨hdefinable, o, r, bytes, hfound, transformed⟩
    refine ⟨rfl, ⟨r.bytes, some o.location, false⟩, bytes, ?_, transformed, rfl⟩
    exact draft?_eq_some_iff.2 ⟨hdefinable, fetch_eq_some_iff.2 (Or.inl ⟨o, r, hfound, rfl⟩)⟩

/-- A load defines its name from the fallback loader's bytes if it has leave to and that loader
supplies the definition. -/
theorem gains_layeredFromFallback_iff :
    s.Gains (s.loadDotted b t name allowed).2 name .layeredFromFallback ↔
      (allowed || s.provenance.isFallbackSourced name) = true ∧ s.SuppliedByFallback b t name := by
  rw [gains_loadDotted_iff]
  constructor
  · rintro ⟨-, f, bytes, drafted, transformed, hby⟩
    obtain ⟨hdefinable, hfetched⟩ := draft?_eq_some_iff.1 drafted
    rcases fetch_eq_some_iff.1 hfetched with ⟨o, r, -, rfl⟩ | ⟨hnone, hleave, r, hcopy, hs, rfl⟩
    · cases hby
    · exact ⟨hleave, hdefinable, hnone, r, bytes, hcopy, hs, transformed⟩
  · rintro ⟨hleave, hdefinable, hnone, r, bytes, hcopy, hs, transformed⟩
    let source := r.location.codeSource? t (SymbolName.resource name b.config.resourceSuffix)
    refine ⟨rfl, ⟨r.bytes, source, true⟩, bytes, ?_, transformed, rfl⟩
    have hfetched := fetch_eq_some_iff.2 (Or.inr ⟨hnone, hleave, r, hcopy, hs, rfl⟩)
    exact draft?_eq_some_iff.2 ⟨hdefinable, hfetched⟩

end Pipeline

section

variable {φ β : Type}

/-- In every run, the names that are defined from the fallback loader's bytes are marked. -/
theorem World.isMarked_of_defined_run (b : Blueprint φ β) (t : FileTree) (f : φ) (g : β)
    (es : List Event) {name : String} {x : Symbol}
    (h : ((World.start b t f g).run b es).pipeline.defined.get? name = some x)
    (hby : x.definedBy = .layeredFromFallback) :
    ((World.start b t f g).run b es).pipeline.provenance.isMarked name = true := by
  let P : List Event → World φ β → Prop := fun _ w => ∀ name x,
    w.pipeline.defined.get? name = some x → x.definedBy = .layeredFromFallback →
      w.pipeline.provenance.isMarked name = true
  have h0 : P [] (World.start b t f g) := nofun
  have hstep (es : List Event) (e : Event) (w : World φ β) (hw : P es w) :
      P (es ++ [e]) (w.step b e) := by
    intro name x hx hby
    rw [isMarked_step]
    by_cases hold : w.pipeline.defined.get? name = some x
    · exact Or.inl (hw name x hold hby)
    · exact Or.inr (Or.inr ⟨x, hx, hold, hby⟩)
  exact run_induction h0 hstep es name x h hby

/-- After a name was defined from the fallback loader's bytes, a load defines a name that is nested
in it from a registered origin exactly if one supplies the definition then, and from the fallback
loader's bytes exactly if no registered origin has it and that loader supplies it. All the while the
enclosing name keeps its symbol. -/
theorem gains_nested_iff (b : Blueprint φ β) (t : FileTree) (f : φ) (g : β)
    (es later : List Event) {outer spelling : String} {y : Symbol}
    (hy : ((World.start b t f g).run b es).pipeline.defined.get? outer = some y)
    (hby : y.definedBy = .layeredFromFallback)
    (hn : SymbolName.Encloses outer (SymbolName.dotted spelling)) (allowed : Bool) :
    let name := SymbolName.dotted spelling
    let w := (World.start b t f g).run b (es ++ later)
    let w' := w.step b (.request (.load spelling allowed))
    w'.pipeline.defined.get? outer = some y ∧
      (w.pipeline.Gains w'.pipeline name .layered ↔
        w.pipeline.SuppliedByOrigin b w.tree name) ∧
      (outer ≠ "" → (w.pipeline.Gains w'.pipeline name .layeredFromFallback ↔
        w.pipeline.SuppliedByFallback b w.tree name)) := by
  intro name w w'
  have hkept : w.pipeline.defined.get? outer = some y := by
    unfold w
    rw [World.run_append]
    exact World.get?_run hy later
  refine ⟨World.get?_step hkept _, ?_, ?_⟩
  · unfold w'
    rw [World.pipeline_load]
    exact Pipeline.gains_layered_iff
  · intro hne
    have hsourced : w.pipeline.provenance.isFallbackSourced name = true := by
      rw [Provenance.isFallbackSourced_iff]
      exact ⟨outer, Or.inr ⟨hne, hn⟩, World.isMarked_of_defined_run b t f g _ hkept hby⟩
    unfold w'
    rw [World.pipeline_load, Pipeline.gains_layeredFromFallback_iff, hsourced, Bool.or_true]
    exact and_iff_right rfl

end

/-- `A` is defined from `/lib` in the fallback loader. Then `/ext` is registered, which supplies the
definition of `A$B` although `/lib` has one, too. -/
theorem supplied_nested :
    let t : FileTree :=
      ⟨[(["lib"], .directory), (["lib", "A.sym"], .file ⟨#[49]⟩),
        (["lib", "A$B.sym"], .file ⟨#[50]⟩), (["ext"], .directory),
        (["ext", "A$B.sym"], .file ⟨#[51]⟩)], []⟩
    let b : Blueprint SearchPath Unit := Blueprint.overSearchPath {} BootstrapLoader.none
    let es : List Event := [.request (.load "A" true)]
    let later : List Event := [.request (.register ⟨"/ext"⟩ none)]
    let y : Symbol :=
      ⟨"A", ⟨#[49]⟩, some ⟨"/lib"⟩, Descriptor.empty, .layeredFromFallback⟩
    ∃ f, SearchPath.ofPaths t [⟨"/lib"⟩] (Config.resourceSuffix {}) = .ok f ∧
      ((World.start b t f ()).run b es).pipeline.defined.get? "A" = some y ∧
      SymbolName.Encloses "A" "A$B" ∧
      let w := (World.start b t f ()).run b (es ++ later)
      w.pipeline.SuppliedByOrigin b w.tree "A$B" := by
  intro t b es later y
  have hsupplied : ∀ f, ((World.start b t f ()).run b es).pipeline.defined.get? "A" = some y →
      let w := (World.start b t f ()).run b (es ++ later)
      let x : Symbol := ⟨"A$B", ⟨#[51]⟩, some ⟨"/ext"⟩, Descriptor.empty, .layered⟩
      (w.step b (.request (.load "A$B" false))).pipeline.defined.get? "A$B" = some x →
      w.pipeline.defined.get? "A$B" ≠ some x → w.pipeline.SuppliedByOrigin b w.tree "A$B" := by
    intro f hy w x hafter hbefore
    have hname : SymbolName.dotted "A$B" = "A$B" := by decide
    have hn : SymbolName.Encloses "A" (SymbolName.dotted "A$B") := by decide
    obtain ⟨-, hiff, -⟩ := gains_nested_iff b t f () es later hy rfl hn false
    rw [hname] at hiff
    have hgains : w.pipeline.Gains (w.step b (.request (.load "A$B" false))).pipeline "A$B"
        .layered := ⟨x, hafter, hbefore, rfl⟩
    exact hiff.1 hgains
  refine ⟨_, rfl, ?defined, by decide, hsupplied _ ?defined ?after ?before⟩
  case defined => decide +kernel
  case after => decide +kernel
  case before => decide +kernel

/-- A nested name is defined from a registered origin although its enclosing name came, and stays,
from the fallback loader, which has a copy of the nested name as well. -/
theorem layered_beside_fallback :
    let t : FileTree :=
      ⟨[(["lib"], .directory), (["lib", "A.sym"], .file ⟨#[49]⟩),
        (["lib", "A$B.sym"], .file ⟨#[50]⟩), (["ext"], .directory),
        (["ext", "A$B.sym"], .file ⟨#[51]⟩)], []⟩
    let b : Blueprint SearchPath Unit := Blueprint.overSearchPath {} BootstrapLoader.none
    let es : List Event := [.request (.load "A" true), .request (.register ⟨"/ext"⟩ none)]
    let e : Event := .request (.load "A$B" false)
    let outer : Symbol :=
      ⟨"A", ⟨#[49]⟩, some ⟨"/lib"⟩, Descriptor.empty, .layeredFromFallback⟩
    let inner : Symbol := ⟨"A$B", ⟨#[51]⟩, some ⟨"/ext"⟩, Descriptor.empty, .layered⟩
    ∃ f, SearchPath.ofPaths t [⟨"/lib"⟩] (Config.resourceSuffix {}) = .ok f ∧
      SymbolName.Encloses "A" "A$B" ∧
      let w := (World.start b t f ()).run b es
      w.pipeline.defined.get? "A" = some outer ∧
        w.pipeline.defined.get? "A$B" = none ∧
        (w.step b e).pipeline.defined.get? "A" = some outer ∧
        (w.step b e).pipeline.defined.get? "A$B" = some inner := by
  intro t b es e outer inner
  refine ⟨_, rfl, by decide, ?_, ?_, ?_, ?_⟩
  · decide +kernel
  · decide +kernel
  · decide +kernel
  · decide +kernel

end Overlay
