import Overlay.Loader.Memory
import Overlay.Proofs.Coherence
import Overlay.Proofs.Defining
import Overlay.Proofs.Views

/-!
# Definitions from the fallback loader's bytes

A name that is defined from the fallback loader's bytes is marked, and whatever takes after a marked
name may be defined so in turn. No such definition passes over a registered origin, and every mark
goes back to a request: to a load that was given leave to use the fallback loader, or to a mark from
outside.
-/

namespace Overlay

namespace Pipeline

variable {φ β : Type} {b : Blueprint φ β} {t : FileTree} {name : String} {allowed : Bool}
  {s : Pipeline φ β}

/-- The draft of a symbol from the fallback loader is that loader's copy, which the load has leave
to take. No registered origin has the resource, and the copy lies in none. -/
theorem Enters.copied {f : Fetched} {x : Symbol} (h : Enters b t name allowed s f x)
    (hx : x.definedBy = .layeredFromFallback) :
    (s.registry.resolve? t (SymbolName.resource name b.config.resourceSuffix) s.lookups).1 =
        .ok none ∧
      (allowed || s.provenance.isFallbackSourced name) = true ∧
      ∀ p, x.codeSource = some p → s.registry.contains p = false := by
  have hvia := h.viaFallback_iff.2 hx
  have hfetched := (draft?_eq_some_iff.1 h.drafted).2
  rcases fetch_eq_some_iff.1 hfetched with ⟨o, r, -, rfl⟩ | ⟨hnone, hleave, r, -, hs, rfl⟩
  · cases hvia
  · refine ⟨hnone, hleave, ?_⟩
    intro p hp
    rw [h.codeSource_eq] at hp
    change r.location.codeSource? t _ = some p at hp
    rw [Registry.isShadowed, hp] at hs
    exact hs

/-- A load marks the name that it defines from the fallback loader's bytes, and no other. -/
theorem isMarked_loadDotted {n : String} :
    (s.loadDotted b t name allowed).2.provenance.isMarked n = true ↔
      s.provenance.isMarked n = true ∨
        s.Gains (s.loadDotted b t name allowed).2 n .layeredFromFallback := by
  rw [gains_loadDotted_iff]
  have hs := settles_loadDotted b t name allowed s
  generalize s.loadDotted b t name allowed = r at hs ⊢
  cases hs with
  | leaves undrafted tables => simp [provenance_of_tables tables, undrafted]
  | refuses drafted refused tables => simp [provenance_of_tables tables, drafted, refused]
  | @defines f x s' entered defined_eq provenance_eq =>
    have hvia : f.viaFallback = true ↔
        DefinedBy.layeredFromFallback = if f.viaFallback then .layeredFromFallback else .layered := by
      cases f.viaFallback <;> simp
    rw [provenance_eq, isMarked_markFetched, or_comm, hvia]
    simp [entered.drafted, entered.transformed]

end Pipeline

namespace Request

variable {φ β : Type}

/-- A request other than a load marks what it is told to mark, and nothing else. -/
theorem isMarked_run {r : Request} (hr : ∀ name allowed, r ≠ .load name allowed)
    (b : Blueprint φ β) (t : FileTree) (s : Pipeline φ β) (name : String) :
    (r.run b t s).2.provenance.isMarked name = true ↔
      s.provenance.isMarked name = true ∨ r = .mark name := by
  have hunchanged (h : (r.run b t s).2.provenance = s.provenance) (hne : r ≠ .mark name) :
      (r.run b t s).2.provenance.isMarked name = true ↔
        s.provenance.isMarked name = true ∨ r = .mark name := by
    rw [h]
    exact ⟨Or.inl, fun h => h.resolve_right hne⟩
  by_cases hasks : r.asks = true
  · refine hunchanged (Pipeline.provenance_of_tables (tables_run_of_asks hasks b t s)) ?_
    rintro rfl
    cases hasks
  cases r with
  | load name allowed => exact absurd rfl (hr name allowed)
  | mark n =>
    change (s.provenance.mark n).isMarked name = true ↔ _
    rw [Provenance.isMarked_mark, or_comm, mark.injEq, @eq_comm _ n]
  | register p tag | descriptor location => exact hunchanged rfl (by simp)
  | install tr =>
    refine hunchanged ?_ (by simp)
    simp only [run, Pipeline.install]
    split <;> rfl
  | _ => exact absurd rfl hasks

end Request

namespace World

variable {φ β : Type} {b : Blueprint φ β} {w : World φ β}

/-- A name gets marked from outside or by its definition from the fallback loader's bytes. -/
theorem isMarked_step {e : Event} {name : String} :
    (w.step b e).pipeline.provenance.isMarked name = true ↔
      w.pipeline.provenance.isMarked name = true ∨ e = .request (.mark name) ∨
        w.pipeline.Gains (w.step b e).pipeline name .layeredFromFallback := by
  by_cases hload : ∃ spelling allowed, e = .request (.load spelling allowed)
  · obtain ⟨spelling, allowed, rfl⟩ := hload
    rw [pipeline_load, Pipeline.isMarked_loadDotted]
    simp
  · have hd := (w.load_or_defined_step b e).resolve_left hload
    rw [or_iff_left (Pipeline.not_gains_of_defined_eq hd)]
    cases e with
    | files t => simp [step]
    | request r =>
      rw [Event.request.injEq]
      apply Request.isMarked_run
      intro spelling allowed he
      exact hload ⟨spelling, allowed, congrArg Event.request he⟩

/-- An event defines a name from the fallback loader's bytes as it should. -/
structure Sanctioned (b : Blueprint φ β) (w : World φ β) (e : Event) (name : String)
    (x : Symbol) : Prop where
  /-- No registered origin has the resource of the name. -/
  absent : ∀ o ∈ w.pipeline.registry.order, (o.holds w.tree
    (SymbolName.resource name b.config.resourceSuffix) w.pipeline.lookups).1 = false
  /-- The origin of the symbol, if it has one, is not registered. -/
  unregistered : ∀ p, x.codeSource = some p → w.pipeline.registry.contains p = false
  /-- The event is a load of the name, with leave to use the fallback loader or of a name that takes
  after a marked one. -/
  leave : ∃ spelling allowed, e = .request (.load spelling allowed) ∧
    SymbolName.dotted spelling = name ∧
      (allowed = true ∨ ∃ outer, SymbolName.TakesAfter name outer ∧
        w.pipeline.provenance.isMarked outer = true)

/-- Every definition from the fallback loader's bytes is sanctioned. -/
theorem sanctioned_step (hr : w.pipeline.registry.Consistent) {e : Event} {name : String}
    {x : Symbol} (h : (w.step b e).pipeline.defined.get? name = some x)
    (hnew : w.pipeline.defined.get? name ≠ some x) (hx : x.definedBy = .layeredFromFallback) :
    Sanctioned b w e name x := by
  obtain ⟨spelling, allowed, f, rfl, rfl, entered⟩ := enters_of_newly_defined h hnew
  obtain ⟨hnone, hleave, hunregistered⟩ := entered.copied hx
  refine ⟨?_, hunregistered, spelling, allowed, rfl, rfl, ?_⟩
  · exact (Registry.resolveIn_eq_none_iff hr.distinct).1 hnone
  · rw [Bool.or_eq_true, Provenance.isFallbackSourced_iff] at hleave
    exact hleave

end World

/-- Some event loaded a name that the given one takes after, with leave to use the fallback loader,
or marked it from outside. -/
def Rooted (es : List Event) (name : String) : Prop :=
  ∃ root, SymbolName.TakesAfter name root ∧
    (Event.request (.mark root) ∈ es ∨
      ∃ spelling, Event.request (.load spelling true) ∈ es ∧ SymbolName.dotted spelling = root)

/-- A root stays a root whatever happens next. -/
theorem Rooted.append {es : List Event} {name : String} (h : Rooted es name) (later : List Event) :
    Rooted (es ++ later) name := by
  obtain ⟨root, htakes, hmark | ⟨spelling, hload, hroot⟩⟩ := h
  · exact ⟨root, htakes, Or.inl (List.mem_append_left _ hmark)⟩
  · exact ⟨root, htakes, Or.inr ⟨spelling, List.mem_append_left _ hload, hroot⟩⟩

/-- What takes after a name has the root of that name. -/
theorem Rooted.of_takesAfter {es : List Event} {name outer : String} (h : Rooted es outer)
    (htakes : SymbolName.TakesAfter name outer) : Rooted es name := by
  obtain ⟨root, hroot, hevent⟩ := h
  exact ⟨root, htakes.trans hroot, hevent⟩

section

variable {φ β : Type}

/-- An event marks only names with a root. -/
theorem rooted_step {b : Blueprint φ β} {w : World φ β} {es : List Event}
    (hr : w.pipeline.registry.Consistent)
    (h : ∀ name, w.pipeline.provenance.isMarked name = true → Rooted es name) (e : Event)
    (name : String) (hm : (w.step b e).pipeline.provenance.isMarked name = true) :
    Rooted (es ++ [e]) name := by
  have hlast : e ∈ es ++ [e] := List.mem_append_right _ (List.mem_singleton_self e)
  rcases World.isMarked_step.1 hm with hold | rfl | ⟨x, hdefined, hnew, hx⟩
  · exact (h name hold).append [e]
  · exact ⟨name, Or.inl rfl, Or.inl hlast⟩
  · -- the load had leave of its own, or of a mark whose root is known by induction
    obtain ⟨spelling, allowed, rfl, rfl, hleave⟩ :=
      (World.sanctioned_step hr hdefined hnew hx).leave
    rcases hleave with rfl | ⟨outer, htakes, houter⟩
    · exact ⟨_, Or.inl rfl, Or.inr ⟨spelling, hlast, rfl⟩⟩
    · exact ((h outer houter).of_takesAfter htakes).append _

/-- In every run, a definition from the fallback loader's bytes passes over no registered origin and
is given leave by its request or by a mark, and every mark goes back to a request, through names
that take after each other. -/
theorem sanctioned_run (b : Blueprint φ β) (t : FileTree) (f : φ) (g : β) (es : List Event) :
    let w := (World.start b t f g).run b es
    (∀ e name x, (w.step b e).pipeline.defined.get? name = some x →
      w.pipeline.defined.get? name ≠ some x → x.definedBy = .layeredFromFallback →
        World.Sanctioned b w e name x) ∧
      ∀ name, w.pipeline.provenance.isMarked name = true → Rooted es name := by
  intro w
  refine ⟨?_, ?_⟩
  · intro e name x h hnew hx
    exact World.sanctioned_step (World.consistent_run b t f g es) h hnew hx
  · let P : List Event → World φ β → Prop := fun es w =>
      w.pipeline.registry.Consistent ∧
        ∀ name, w.pipeline.provenance.isMarked name = true → Rooted es name
    have h0 : P [] (World.start b t f g) := ⟨Registry.consistent_empty, nofun⟩
    have hstep (es : List Event) (e : Event) (w : World φ β) (h : P es w) :
        P (es ++ [e]) (w.step b e) := ⟨World.consistent_step h.1 e, rooted_step h.1 h.2 e⟩
    exact (World.run_induction h0 hstep es).2

/-- A nested name is defined from the fallback loader's bytes after its enclosing name, which a load
with leave has marked. -/
theorem sanctioned_nested :
    let stored (name : String) : Resource := ⟨.entry ⟨"/a.tar"⟩ name, ByteArray.empty⟩
    let f := (Memory.empty.addResource "A.sym" (stored "A.sym")).addResource "A$B.sym"
      (stored "A$B.sym")
    let b : Blueprint Memory Unit := ⟨{}, Memory.loader, BootstrapLoader.none⟩
    let t : FileTree := ⟨[], []⟩
    let x : Symbol :=
      ⟨"A$B", ByteArray.empty, some ⟨"/a.tar"⟩, Descriptor.empty, .layeredFromFallback⟩
    let es : List Event := [.request (.load "A" true)]
    let e : Event := .request (.load "A$B" false)
    let w := (World.start b t f ()).run b es
    (w.step b e).pipeline.defined.get? "A$B" = some x ∧ World.Sanctioned b w e "A$B" x ∧
      (w.step b e).pipeline.provenance.isMarked "A$B" = true ∧ Rooted (es ++ [e]) "A$B" := by
  intro stored f b t x es e w
  have hdefined : (w.step b e).pipeline.defined.get? "A$B" = some x := by decide +kernel
  have hnew : w.pipeline.defined.get? "A$B" ≠ some x := by decide +kernel
  have hmarked : (w.step b e).pipeline.provenance.isMarked "A$B" = true := by decide +kernel
  have hby : x.definedBy = .layeredFromFallback := rfl
  clear_value x e es t b f
  have hrooted := (sanctioned_run b t f () (es ++ [e])).2 "A$B"
  rw [World.run_snoc] at hrooted
  exact ⟨hdefined, (sanctioned_run b t f () es).1 e "A$B" x hdefined hnew hby, hmarked,
    hrooted hmarked⟩

end

end Overlay
