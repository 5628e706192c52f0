import Overlay.Proofs.Ahead
import Overlay.Proofs.FirstOccurrences
import Overlay.Startup

/-!
# Listed transform configurations

The descriptor of an origin may list transform configurations, between commas and spaces. The list
that a host starts with has each of them once, in the order in which the origins' descriptors, read
in the order of registration, first name them, with the location of the origin that does. Once the
list was asked for, the descriptors are kept, so that it is the same from then on, whatever happens
to the files.
-/

namespace Overlay

variable {φ β : Type} {t t' : FileTree} {s : Pipeline φ β} {o : Origin} {p q : Path}

/-- Cutting a text into pieces is splitting it at the separators. -/
theorem Text.pieces_eq_splitOnP {α : Type} (sep : α → Bool) (xs : List α) :
    pieces sep xs = xs.splitOnP sep := by
  induction xs with
  | nil => simp [pieces]
  | cons x xs ih =>
    rw [pieces, List.splitOnP_cons_eq_if_modifyHead, ← ih]
    split
    · rfl
    · cases hp : pieces sep xs with
      | nil => exact absurd hp (pieces_ne_nil sep xs)
      | cons q qs => rfl

namespace Pipeline

/-- Asking for a descriptor changes no other one. -/
theorem descriptorFor_of_ne (h : q.components ≠ p.components) (t t' : FileTree)
    (s : Pipeline φ β) :
    ((s.descriptorFor t p).2.descriptorFor t' q).1 = (s.descriptorFor t' q).1 := by
  obtain ⟨ds, j, he, hget⟩ := s.exists_twin_descriptorFor t p
  have hkept : ds.get? q.components = s.metadata.get? q := by rw [hget, if_neg h]
  rw [he, descriptorFor_fst, s.descriptorFor_fst t' q, ← hkept]
  rfl

end Pipeline

namespace Startup

/-- The names in a list: what stands between commas and spaces, if it is not empty. -/
def listed (value : String) : List String :=
  ((value.toList.splitOnP fun c => c == ',' || c == ' ').filter (· != [])).map String.ofList

theorem configNames_eq_listed (value : String) : configNames value = listed value := by
  rw [configNames, Text.pieces_eq_splitOnP, listed]

/-- A name in a list is not empty and has neither commas nor spaces. -/
theorem plain_of_mem_listed {value name : String} (h : name ∈ listed value) :
    name ≠ "" ∧ ',' ∉ name.toList ∧ ' ' ∉ name.toList := by
  rw [← configNames_eq_listed] at h
  obtain ⟨chars, hchars, rfl⟩ := List.mem_map.1 h
  obtain ⟨hpiece, hne⟩ := List.mem_filter.1 hchars
  have hplain (c : Char) (hc : (c == ',' || c == ' ') = true) : c ∉ chars := by
    intro hmem
    rw [Text.not_of_mem_pieces hpiece hmem] at hc
    cases hc
  refine ⟨?_, ?_, ?_⟩
  · simpa using hne
  · rw [String.toList_ofList]
    exact hplain ',' rfl
  · rw [String.toList_ofList]
    exact hplain ' ' rfl

example : listed "a.json, b.json  a.json," = ["a.json", "b.json", "a.json"] := by decide +kernel

/-- The transform configurations that a descriptor lists. -/
def listedIn (d : Descriptor) : List String := (d.get? transformConfigsKey).toList.flatMap listed

/-- The transform configurations that an origin's descriptor lists. -/
def declaredBy (t : FileTree) (s : Pipeline φ β) (o : Origin) : List String :=
  listedIn (s.descriptorFor t o.location).1

/-- What some origins declare, in their order, each with the origin's location. -/
def declarations (t : FileTree) (s : Pipeline φ β) (os : List Origin) : List Declared :=
  os.flatMap fun o => (declaredBy t s o).map (·, o.location)

/-- The transform configurations that a pipeline's origins declare. -/
structure Lists (t : FileTree) (s : Pipeline φ β) (configs : List Declared) : Prop where
  /-- No name comes twice. -/
  distinct : (configs.map (·.1)).Nodup
  /-- A name is not empty and has neither commas nor spaces. -/
  plain : ∀ name ∈ configs.map (·.1), name ≠ "" ∧ ',' ∉ name.toList ∧ ' ' ∉ name.toList
  /-- The names are those that the registered origins declare. -/
  mem_iff : ∀ name, name ∈ configs.map (·.1) ↔ ∃ o ∈ s.registry.order, name ∈ declaredBy t s o
  /-- They are in the order of their first occurrence. -/
  ordered : configs.map (·.1) = (s.registry.order.flatMap (declaredBy t s)).eraseDups
  /-- With a name comes the location of the first origin that declares it. -/
  first : ∀ name location, (name, location) ∈ configs →
    ∃ o, s.registry.order.find? (fun o => (declaredBy t s o).contains name) = some o ∧
      o.location = location

theorem map_fst_declarations (t : FileTree) (s : Pipeline φ β) (os : List Origin) :
    (declarations t s os).map (·.1) = os.flatMap (declaredBy t s) := by
  simp [declarations, List.map_flatMap, Function.comp_def]

/-- Among the names declared at one location a search finds the one that it is for. -/
theorem find?_declared (names : List String) (p : Path) (name : String) :
    (names.map (·, p)).find? (·.1 == name) = if name ∈ names then some (name, p) else none := by
  induction names with
  | nil => rfl
  | cons other names ih =>
    by_cases h : other = name
    · simp [h]
    · simp [h, Ne.symm h, ih]

/-- What is declared first comes from the first origin that declares it. -/
theorem find?_of_find?_declarations {os : List Origin} {name : String}
    (h : (declarations t s os).find? (·.1 == name) = some (name, p)) :
    ∃ o, os.find? (fun o => (declaredBy t s o).contains name) = some o ∧ o.location = p := by
  induction os with
  | nil => cases h
  | cons o os ih =>
    rw [declarations, List.flatMap_cons, List.find?_append, find?_declared] at h
    by_cases hname : name ∈ declaredBy t s o
    · rw [if_pos hname, Option.some_or] at h
      refine ⟨o, ?_, congrArg Prod.snd (Option.some.inj h)⟩
      simp [hname]
    · rw [if_neg hname, Option.none_or] at h
      obtain ⟨o', ho', hp⟩ := ih h
      refine ⟨o', ?_, hp⟩
      simpa [hname] using ho'

/-- The first declarations of all names are what the origins declare. -/
theorem lists_firsts (t : FileTree) (s : Pipeline φ β) :
    Lists t s (firsts Prod.fst (declarations t s s.registry.order)) := by
  have hnames := map_firsts Prod.fst (declarations t s s.registry.order)
  rw [map_fst_declarations] at hnames
  have hmem (name : String) :
      name ∈ (firsts Prod.fst (declarations t s s.registry.order)).map (·.1) ↔
        ∃ o ∈ s.registry.order, name ∈ declaredBy t s o := by
    rw [hnames, List.mem_eraseDups, List.mem_flatMap]
  refine ⟨nodup_map_firsts Prod.fst _, ?_, hmem, hnames, ?_⟩
  · intro name hname
    obtain ⟨o, -, ho⟩ := (hmem name).1 hname
    obtain ⟨value, -, hvalue⟩ := List.mem_flatMap.1 ho
    exact plain_of_mem_listed hvalue
  · intro name location h
    exact find?_of_find?_declarations (find?_of_mem_firsts h)

/-- Declaring adds the names that are new. -/
theorem declare_firsts (o : Origin) (names : List String) (ds : List Declared)
    (s : Pipeline φ β) : (declare o names (firsts Prod.fst ds) s).1 =
      firsts Prod.fst (ds ++ names.map (·, o.location)) := by
  induction names generalizing ds s with
  | nil => simp [declare]
  | cons name names ih =>
    have hlast : ds ++ (name :: names).map (·, o.location) =
        (ds ++ [(name, o.location)]) ++ names.map (·, o.location) := by simp
    rw [hlast, declare]
    by_cases hname : name ∈ (firsts Prod.fst ds).map Prod.fst
    · have hany : (firsts Prod.fst ds).any (·.1 == name) = true := by simpa using hname
      rw [if_pos hany, ← ih _ (s.note (.configRepeated name o.location)),
        firsts_concat_of_mem Prod.fst ds hname]
    · have hany : ¬(firsts Prod.fst ds).any (·.1 == name) = true := by simpa using hname
      rw [if_neg hany, ← ih _ s, firsts_concat_of_notMem Prod.fst ds hname]

/-- Declaring leaves at most notices. -/
theorem exists_twin_declare (o : Origin) (names : List String) (ds : List Declared)
    (s : Pipeline φ β) : ∃ j, (declare o names ds s).2 = s.twin s.metadata j := by
  induction names generalizing ds s with
  | nil => exact ⟨s.lookups.journal, rfl⟩
  | cons name names ih =>
    rw [declare]
    split
    · exact ih ds (s.note (.configRepeated name o.location))
    · exact ih _ s

/-- The descriptors of some origins were read: they are answered from then on, and what is answered
for other places is the same as before. -/
structure Reads (t : FileTree) (os : List Origin) (s s' : Pipeline φ β) : Prop where
  /-- The origins stay registered. -/
  registry : s'.registry = s.registry
  /-- The descriptors that were read are answered, whatever the files are. -/
  read : ∀ o ∈ os, ∀ t', (s'.descriptorFor t' o.location).1 = (s.descriptorFor t o.location).1
  /-- No other answer has changed. -/
  other : ∀ q : Path, q.components ∉ os.map (·.location.components) →
    ∀ t', (s'.descriptorFor t' q).1 = (s.descriptorFor t' q).1

/-- What an origin lists is declared after its descriptor was read. -/
theorem reads_declare (t : FileTree) (o : Origin) (names : List String) (ds : List Declared)
    (s : Pipeline φ β) :
    Reads t [o] s (declare o names ds (s.descriptorFor t o.location).2).2 := by
  obtain ⟨j, hj⟩ := exists_twin_declare o names ds (s.descriptorFor t o.location).2
  have hsame (t' : FileTree) (q : Path) :
      ((declare o names ds (s.descriptorFor t o.location).2).2.descriptorFor t' q).1 =
        ((s.descriptorFor t o.location).2.descriptorFor t' q).1 := by
    rw [hj, Pipeline.descriptorFor_fst, Pipeline.descriptorFor_fst]
    rfl
  refine ⟨by rw [hj]; rfl, ?_, ?_⟩
  · intro o' ho' t'
    obtain rfl := List.mem_singleton.1 ho'
    rw [hsame, Pipeline.descriptorFor_again t t' rfl]
  · intro q hq t'
    rw [hsame, Pipeline.descriptorFor_of_ne (by simpa using hq)]

/-- The descriptors of different origins are read one after the other. -/
theorem Reads.cons {os : List Origin} {s₁ s₂ : Pipeline φ β} (h : Reads t [o] s s₁)
    (h' : Reads t os s₁ s₂) (hnew : o.location.components ∉ os.map (·.location.components)) :
    Reads t (o :: os) s s₂ where
  registry := h'.registry.trans h.registry
  read o' ho' t' := by
    rcases List.mem_cons.1 ho' with rfl | ho'
    · rw [h'.other _ hnew, h.read _ List.mem_cons_self]
    · have hne : o'.location.components ∉ [o].map (·.location.components) := by
        rw [List.map_singleton, List.mem_singleton]
        exact fun he => hnew (he ▸ List.mem_map_of_mem ho')
      rw [h'.read o' ho', h.other _ hne]
  other q hq t' := by
    rw [List.map_cons, List.mem_cons, not_or] at hq
    rw [h'.other q hq.2, h.other q (by simpa using hq.1)]

/-- Origins in other places declare what they declared before. -/
theorem Reads.declarations_eq {os os' : List Origin} {s' : Pipeline φ β} (h : Reads t os s s')
    (hother : ∀ o ∈ os', o.location.components ∉ os.map (·.location.components)) :
    declarations t s' os' = declarations t s os' := by
  refine List.flatMap_congr fun o ho => ?_
  rw [declaredBy, h.other _ (hother o ho), declaredBy]

/-- Origins whose descriptors were read declare what they declared, whatever the files are. -/
theorem Reads.declarations_again {os : List Origin} {s' : Pipeline φ β} (h : Reads t os s s')
    (t' : FileTree) : declarations t' s' os = declarations t s os := by
  refine List.flatMap_congr fun o ho => ?_
  rw [declaredBy, h.read o ho, declaredBy]

/-- An origin's descriptor is read, and what it lists is declared. -/
theorem transformConfigsIn_cons (t : FileTree) (o : Origin) (os : List Origin)
    (ds : List Declared) (s : Pipeline φ β) :
    transformConfigsIn t (o :: os) ds s =
      let declared := declare o (declaredBy t s o) ds (s.descriptorFor t o.location).2
      transformConfigsIn t os declared.1 declared.2 := by
  rw [transformConfigsIn, declaredBy, listedIn]
  generalize s.descriptorFor t o.location = described
  obtain ⟨d, s₁⟩ := described
  cases hd : d.get? transformConfigsKey with
  | none => simp [hd, declare]
  | some value => simp [hd, configNames_eq_listed]

/-- The first declarations of origins in different places are added to those made before, and their
descriptors are read. -/
theorem transformConfigsIn_firsts {os : List Origin}
    (hos : (os.map (·.location.components)).Nodup) (t : FileTree) (ds : List Declared)
    (s : Pipeline φ β) :
    (transformConfigsIn t os (firsts Prod.fst ds) s).1 =
        firsts Prod.fst (ds ++ declarations t s os) ∧
      Reads t os s (transformConfigsIn t os (firsts Prod.fst ds) s).2 := by
  induction os generalizing ds s with
  | nil => exact ⟨by simp [transformConfigsIn, declarations], rfl, nofun, fun _ _ _ => rfl⟩
  | cons o os ih =>
    rw [List.map_cons, List.nodup_cons] at hos
    have hreads := reads_declare t o (declaredBy t s o) (firsts Prod.fst ds) s
    have hrest : declarations t
        (declare o (declaredBy t s o) (firsts Prod.fst ds) (s.descriptorFor t o.location).2).2 os =
          declarations t s os := by
      refine hreads.declarations_eq fun o' ho' hmem => hos.1 ?_
      rw [List.map_singleton, List.mem_singleton] at hmem
      exact hmem ▸ List.mem_map_of_mem ho'
    rw [transformConfigsIn_cons]
    dsimp only
    rw [declare_firsts]
    obtain ⟨hlist, hreads'⟩ := ih hos.2 (ds ++ (declaredBy t s o).map (·, o.location))
      (declare o (declaredBy t s o) (firsts Prod.fst ds) (s.descriptorFor t o.location).2).2
    refine ⟨?_, hreads.cons hreads' hos.1⟩
    rw [hlist, hrest, List.append_assoc]
    rfl

/-- The transform configurations of a pipeline are the first declarations of its origins, whose
descriptors are read. -/
theorem transformConfigs_firsts (h : s.registry.Consistent) (t : FileTree) :
    (transformConfigs t s).1 = firsts Prod.fst (declarations t s s.registry.order) ∧
      Reads t s.registry.order s (transformConfigs t s).2 :=
  transformConfigsIn_firsts h.distinct t [] s

/-- In a consistent registry, the transform configurations are what the origins declare, and they
are the same when they are asked for again. -/
theorem lists_transformConfigs (h : s.registry.Consistent) (now later : FileTree) :
    Lists now s (transformConfigs now s).1 ∧
      (transformConfigs later (transformConfigs now s).2).1 = (transformConfigs now s).1 := by
  obtain ⟨hlist, hreads⟩ := transformConfigs_firsts h now
  have hconsistent : (transformConfigs now s).2.registry.Consistent := hreads.registry.symm ▸ h
  obtain ⟨hagain, -⟩ := transformConfigs_firsts hconsistent later
  rw [hreads.registry, hreads.declarations_again] at hagain
  refine ⟨?_, hagain.trans hlist.symm⟩
  rw [hlist]
  exact lists_firsts now s

/-- After every run the transform configurations are what the registered origins declare, each with
the first origin that declares it, and they are the same when they are asked for again, whatever
the files are by then. -/
theorem listsDeclarations_run (b : Blueprint φ β) (t : FileTree) (f : φ) (g : β)
    (os : List Occurrence) (now later : FileTree) :
    let s := ((Ensemble.start b t f g).run b os).pipeline
    let called := transformConfigs now s
    Lists now s called.1 ∧ (transformConfigs later called.2).1 = called.1 :=
  lists_transformConfigs (Ensemble.consistent_run b t f g os .pipeline _ rfl) now later

end Startup

end Overlay
